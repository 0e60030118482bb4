import MetadataIndex.Reference

/-! What can go wrong, by cause, and the words for it. Ingestion fails over a record of one module;
a query fails over its argument, over metadata that contradicts the index, or over ingestion. The
service form of an error keeps the query causes and folds the others into two. -/
namespace MetadataIndex

inductive IngestError where
  | unresolvedType (module : ModuleId) (type : TypeName)
  | unresolvedMember (module : ModuleId) (owner : TypeName) (member : String)
  | unresolvedMarker (module : ModuleId) (record : String) (marker : TypeName)
  | unmarkedMember (module : ModuleId) (record : String)
  | commit (reason : String)
  deriving DecidableEq, Repr

inductive QueryError where
  | ingest (cause : IngestError)
  | unsupportedGenericQuery (base : TypeRef)
  | notAnAnnotationType (type : TypeName)
  | notRetrievable (type : TypeName)
  | unknownType (type : TypeName)
  | metadataSkew (declaration : String) (marker : TypeName)
  /-- The supertype walk met its limit before an answer. -/
  | undecided (candidate : TypeName) (target : TypeRef)
  | config (reason : String)
  | logging (reason : String)
  | file
  | json
  | internal (reason : String)
  deriving DecidableEq, Repr

inductive ServiceError where
  | unsupportedGenericQuery (base : String)
  | notAnAnnotationType (type : String)
  | notRetrievable (type : String)
  | unknownType (type : String)
  | metadataSkew (declaration marker : String)
  | ingestion (reason : String)
  | internal (reason : String)
  deriving DecidableEq, Repr

def IngestError.message : IngestError → String
  | .unresolvedType m t => "module " ++ m ++ ": record names unknown type " ++ t
  | .unresolvedMember m owner member =>
      "module " ++ m ++ ": type " ++ owner ++ " has no member named " ++ member
  | .unresolvedMarker m r marker =>
      "module " ++ m ++ ": marker " ++ marker ++ " on " ++ r ++ " is not a known annotation type"
  | .unmarkedMember m r =>
      "module " ++ m ++ ": " ++ r ++ " carries no retrievable annotation, check strip settings"
  | .commit reason => "commit failed: " ++ reason

def ServiceError.message : ServiceError → String
  | .unsupportedGenericQuery base =>
      "Unsupported generic query: " ++ base ++ " is only partially bound"
  | .notAnAnnotationType t => "Type " ++ t ++ " is not an annotation type"
  | .notRetrievable t => "Type " ++ t ++ " is not retrievable"
  | .unknownType t => "Unknown type: " ++ t
  | .metadataSkew d marker =>
      "Metadata skew: " ++ d ++ " is indexed with " ++ marker ++ " but carries none"
  | .ingestion reason => "Ingestion failed: " ++ reason
  | .internal reason => "Internal error: " ++ reason

namespace QueryError

def message : QueryError → String
  | .ingest cause => cause.message
  | .unsupportedGenericQuery base => (ServiceError.unsupportedGenericQuery base.text).message
  | .notAnAnnotationType t => (ServiceError.notAnAnnotationType t).message
  | .notRetrievable t => (ServiceError.notRetrievable t).message
  | .unknownType t => (ServiceError.unknownType t).message
  | .metadataSkew d marker => (ServiceError.metadataSkew d marker).message
  | .undecided candidate target =>
      "Supertypes of " ++ candidate ++ " were not exhausted in search of " ++ target.text
  | .config reason => "Configuration error: " ++ reason
  | .logging reason => "Logging error: " ++ reason
  | .file => "I/O error"
  | .json => "JSON serialization/deserialization error"
  | .internal reason => (ServiceError.internal reason).message

def toService : QueryError → ServiceError
  | .unsupportedGenericQuery base => .unsupportedGenericQuery base.text
  | .notAnAnnotationType t => .notAnAnnotationType t
  | .notRetrievable t => .notRetrievable t
  | .unknownType t => .unknownType t
  | .metadataSkew d marker => .metadataSkew d marker
  | .ingest cause => .ingestion cause.message
  | other => .internal other.message

end QueryError
end MetadataIndex
