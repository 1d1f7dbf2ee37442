import XmlIndex.Bytes
import XmlIndex.Error
import XmlIndex.Json.Decode
import XmlIndex.Store.Timeout

/-! # Settings

The settings of a database: where its files lie, how long locks are waited for, how large the
cache of collections is and may become, and how often progress is reported.  They are read from
JSON; a setting that is missing has its default. -/

namespace XmlIndex

/-- The settings of a database. -/
structure Settings where
  storagePath : String := "./data"
  lockTimeout : Timeout := ⟨2000⟩
  scratchLimit : Nat := 512000
  cacheSize : Nat := 64
  cacheThreshold : Nat := 1000
  slotLimit : Nat := 4096
  growthFactor : Float := 1.25
  progressStep : Nat := 5
  deriving Inhabited

namespace Settings

/-- The settings when none is given. -/
def standard : Settings := {}

/-- The names of the settings. -/
def fieldNames : List String :=
  ["storage_path", "lock_timeout_ms", "scratch_high_water", "collection_cache_size",
    "collection_cache_growth_threshold", "cache_memory_budget", "cache_growth_factor",
    "progress_step_percent"]

/-- The settings with this JSON form. -/
def ofJson : Json.Decoder Settings := fun j => do
  let d := standard
  match ← Json.fieldsOrFewer fieldNames j with
  | [path, timeout, scratch, size, threshold, limit, factor, step] =>
    return {
      storagePath := ← Json.withDefault d.storagePath Json.text path
      lockTimeout := ⟨← Json.withDefault d.lockTimeout.milliseconds Json.word64 timeout⟩
      scratchLimit := ← Json.withDefault d.scratchLimit Json.word64 scratch
      cacheSize := ← Json.withDefault d.cacheSize Json.word64 size
      cacheThreshold := ← Json.withDefault d.cacheThreshold Json.word64 threshold
      slotLimit := ← Json.withDefault d.slotLimit Json.word64 limit
      growthFactor := ← Json.withDefault d.growthFactor Json.float factor
      progressStep := ← Json.withDefault d.progressStep Json.word64 step }
  | _ => none

/-- The settings a text holds. -/
def parse (s : String) : Except Error Settings :=
  match (Json.parse s).bind ofJson with
  | some settings => .ok settings
  | none => .error .badJson

/-- The settings a file holds. -/
def ofFile (content : Option Bytes) : Except Error Settings :=
  match content with
  | none => .error .fileMissing
  | some bytes =>
    match Bytes.decodeText? bytes with
    | none => .error .fileNotText
    | some text => parse text

/-- A path below another one; a path from the root stays what it is. -/
def joinPath (base path : String) : String :=
  if path.startsWith "/" then path
  else if base.isEmpty || base.endsWith "/" then base ++ path
  else base ++ "/" ++ path

/-- Where the snapshot of a store of this name lies. -/
def snapshotPath (s : Settings) (name : String) : String :=
  joinPath s.storagePath (name ++ ".dbx")

end Settings

end XmlIndex
