import Mcap.McapError

/-! # Schemas, channels, messages and summaries

The types of `lib.rs` that the writer takes and the readers hand out, and the
`Summary` of `read.rs`.  A hash map that is only looked up is an ordered map here.
-/
namespace Mcap

/-- `Schema`. -/
structure Schema where
  id : UInt16
  name : String
  encoding : String
  data : Bytes
deriving DecidableEq

/-- `Channel`. -/
structure Channel where
  id : UInt16
  topic : String
  schema : Option Schema
  messageEncoding : String
  metadata : BTreeMap String String
deriving DecidableEq

/-- `Message`. -/
structure Message where
  channel : Channel
  sequence : UInt32
  logTime : UInt64
  publishTime : UInt64
  data : Bytes
deriving DecidableEq

/-- `Attachment`. -/
structure Attachment where
  logTime : UInt64
  createTime : UInt64
  name : String
  mediaType : String
  data : Bytes
deriving DecidableEq

/-- `Summary`: the indexes parsed from the summary section of a file. -/
structure Summary where
  stats : Option Statistics
  channels : BTreeMap UInt16 Channel
  schemas : BTreeMap UInt16 Schema
  chunkIndexes : List ChunkIndex
  attachmentIndexes : List AttachmentIndex
  metadataIndexes : List MetadataIndex
deriving DecidableEq

/-- `Summary::default`. -/
def Summary.empty : Summary := ⟨none, ∅, ∅, [], [], []⟩

end Mcap
