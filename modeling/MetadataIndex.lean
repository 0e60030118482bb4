import MetadataIndex.Index.Query
import MetadataIndex.Manifest
import MetadataIndex.Proofs.Supertypes
import MetadataIndex.Proofs.GraphEdges
import MetadataIndex.Proofs.SubtypeListing
import MetadataIndex.Proofs.AttributePaths
import MetadataIndex.Proofs.ViewHandling
import MetadataIndex.Proofs.BoundInstances
import MetadataIndex.Proofs.FiniteWalks
import MetadataIndex.Proofs.JustifiedInstances
import MetadataIndex.Proofs.IngestionTypes
import MetadataIndex.Proofs.RetainedAnnotations
import MetadataIndex.Proofs.GrowingTypes
import MetadataIndex.Proofs.AlikePrograms
import MetadataIndex.Proofs.QueryTiming
import MetadataIndex.Proofs.CollectOutcomes
import MetadataIndex.Proofs.MatchingAnswers
import MetadataIndex.Proofs.IngestionOrder
import MetadataIndex.Proofs.GrowingAnswers
import MetadataIndex.Proofs.ScopedSubtypes
import MetadataIndex.Proofs.SkewReports
import MetadataIndex.Proofs.SkewScope
import MetadataIndex.Proofs.ExactSearch
import MetadataIndex.Proofs.WrittenManifest
import MetadataIndex.Proofs.PreservedRoots
import MetadataIndex.Proofs.StrictQueries
import MetadataIndex.Proofs.EndlessWalks
import MetadataIndex.Proofs.RenamedModules
import MetadataIndex.Proofs.DeclaredRelations
import MetadataIndex.Proofs.StoppedSyncs
import MetadataIndex.Proofs.SnapshotRuns
import MetadataIndex.Proofs.MergedContributions
import MetadataIndex.Proofs.Generations
import MetadataIndex.Proofs.ManifestGroups
import MetadataIndex.Proofs.SupertypeWalks
import MetadataIndex.Proofs.ExactCollections
import MetadataIndex.Proofs.LoadedDefinitions
import MetadataIndex.Proofs.NumberedNodes
import MetadataIndex.Proofs.SubstitutionLaws
import MetadataIndex.Proofs.ConfigLayers
import MetadataIndex.Proofs.BaseChains
