import LevisDB.Core.Err
import Mathlib.Data.Rat.Defs
import Mathlib.Algebra.Order.Ring.Rat

/-!
# Options

The options a database is opened with. `fillDefaults` replaces unset fields,
`validate` rejects what the engine cannot run with, and nothing else is checked
between the options and the code that reads them.
-/

namespace LevisDB

/-- A 64-bit product, which wraps. -/
def wrapInt64 (x : Int) : Int := Int.bmod x (2 ^ 64)

/-- The options that `fillDefaults` and `validate` look at. Durations count
nanoseconds; a ratio that is not a number is none. -/
structure Options where
  dir : String
  memtableSize : Int
  tierRatio : Int
  minCompactionTables : Int
  tombstoneCompactionRatio : Option ℚ
  l0SlowdownTables : Int
  l0StopTables : Int
  maxLevels : Nat
  fileSizeBase : Int
  fileSizeMultiplier : Int
  fileSizeMax : Int
  maxCompactionBytes : Int
  tierByteTrigger : Int
  disableOverlapSelection : Bool
  valueThreshold : Int
  blobFileSize : Int
  bloomBits : Int
  blockSize : Int
  blockCacheSize : Int
  maxOpenFiles : Int
  freshCodec : String
  bottomCodec : String
  levelCodecs : List String
  walSyncInterval : Int
  walSegmentBytes : Int
  walRetention : Int
  walRetentionBytes : Int
  memtableFlushInterval : Int

def maxTierDepth : Nat := 7

def resolveMaxDepth (levels : Nat) : Nat := if levels = 0 then maxTierDepth else levels - 1

def defaultMaxLevels : Nat := maxTierDepth + 1

def defaultTierRatio : Int := 4

def defaultMinCompactionTables : Int := 4

def defaultTombstoneCompactionRatio : ℚ := 1 / 2

def defaultL0SlowdownTables : Int := 16

def defaultL0StopTables : Int := 24

def defaultMemtableSize : Int := 8 * 2 ^ 20

def maxMemtableSize : Int := 2 * 2 ^ 30

def defaultFileSizeBase : Int := 2 * 2 ^ 20

def defaultFileSizeMultiplier : Int := 2

def defaultFileSizeMax : Int := defaultFileSizeBase * 2 ^ (maxTierDepth - 1)

def defaultMaxCompactionFiles : Int := 10

def defaultTierByteTriggerFiles : Int := 8

def defaultBlobFileSize : Int := 256 * 2 ^ 20

def defaultBloomBits : Int := 10

def defaultBlockSize : Int := 4 * 2 ^ 10

def defaultBlockCacheSize : Int := 256 * 2 ^ 20

def defaultMaxOpenFiles : Int := 1000

def defaultWALSyncInterval : Int := 10 ^ 9

def defaultWALSegmentBytes : Int := 64 * 2 ^ 20

def defaultCodec : String := "s2"

def validCodecs : List String := ["none", "s2", "zstd", "flate"]

/-- A field left at zero takes its default. -/
def orDefault (value default : Int) : Int := if value = 0 then default else value

namespace Options

def fillDefaults (o : Options) : Options :=
  let fileSizeMax := orDefault o.fileSizeMax defaultFileSizeMax
  { o with
    tierRatio := orDefault o.tierRatio defaultTierRatio
    minCompactionTables :=
      if o.minCompactionTables = 0 then defaultMinCompactionTables
      else if o.minCompactionTables < 2 then 2 else o.minCompactionTables
    tombstoneCompactionRatio := o.tombstoneCompactionRatio.map fun r =>
      if r = 0 then defaultTombstoneCompactionRatio else if r < 0 then 0 else r
    l0SlowdownTables := orDefault o.l0SlowdownTables defaultL0SlowdownTables
    l0StopTables := orDefault o.l0StopTables defaultL0StopTables
    maxLevels := if o.maxLevels = 0 then defaultMaxLevels else o.maxLevels
    walSyncInterval := orDefault o.walSyncInterval defaultWALSyncInterval
    walSegmentBytes := orDefault o.walSegmentBytes defaultWALSegmentBytes
    fileSizeBase := orDefault o.fileSizeBase defaultFileSizeBase
    memtableSize := orDefault o.memtableSize defaultMemtableSize
    fileSizeMultiplier := orDefault o.fileSizeMultiplier defaultFileSizeMultiplier
    fileSizeMax := fileSizeMax
    maxCompactionBytes :=
      orDefault o.maxCompactionBytes (wrapInt64 (fileSizeMax * defaultMaxCompactionFiles))
    tierByteTrigger :=
      if o.tierByteTrigger = 0 then wrapInt64 (fileSizeMax * defaultTierByteTriggerFiles)
      else if o.tierByteTrigger < 0 then 0 else o.tierByteTrigger
    valueThreshold :=
      if 0 < o.valueThreshold ∧ o.valueThreshold < 2 then 2 else o.valueThreshold
    blobFileSize :=
      if 0 < o.valueThreshold then orDefault o.blobFileSize defaultBlobFileSize else o.blobFileSize
    walRetention := if o.walRetention < 0 then 0 else o.walRetention
    walRetentionBytes := if o.walRetentionBytes < 0 then 0 else o.walRetentionBytes
    bloomBits := orDefault o.bloomBits defaultBloomBits
    blockSize := orDefault o.blockSize defaultBlockSize
    blockCacheSize := orDefault o.blockCacheSize defaultBlockCacheSize
    maxOpenFiles := orDefault o.maxOpenFiles defaultMaxOpenFiles
    freshCodec := if o.freshCodec = "" then defaultCodec else o.freshCodec
    bottomCodec := if o.bottomCodec = "" then defaultCodec else o.bottomCodec }

/-- Fails with a formatted text. -/
def reject (format : String) (args : List FormatArg) : Except Err Unit :=
  .error (.invalidOptions format args)

def validateRatio (o : Options) : Except Err Unit :=
  if o.tombstoneCompactionRatio.any fun r => decide (0 ≤ r ∧ r ≤ 1) then .ok ()
  else
    reject "levisdb: TombstoneCompactionRatio must be in [0,1], got %v"
      [.float o.tombstoneCompactionRatio]

def validateNonNegative (o : Options) : Except Err Unit :=
  if o.valueThreshold < 0 then
    reject "levisdb: ValueThreshold must be non-negative, got %d" [.int o.valueThreshold]
  else if o.blobFileSize < 0 then
    reject "levisdb: BlobFileSize must be non-negative, got %d" [.int o.blobFileSize]
  else if o.walSyncInterval < 0 then
    reject "levisdb: WALSyncInterval must not be negative, got %v" [.duration o.walSyncInterval]
  else if o.memtableFlushInterval < 0 then
    reject "levisdb: MemtableFlushInterval must not be negative, got %v"
      [.duration o.memtableFlushInterval]
  else .ok ()

def validateSizes (o : Options) : Except Err Unit :=
  if o.l0SlowdownTables > 0 ∧ o.l0StopTables > 0 ∧ o.l0StopTables < o.l0SlowdownTables then
    reject "levisdb: L0StopTables (%d) must be >= L0SlowdownTables (%d)"
      [.int o.l0StopTables, .int o.l0SlowdownTables]
  else if o.l0StopTables > 0 ∧ o.l0StopTables < o.tierRatio then
    reject "levisdb: L0StopTables (%d) must be >= TierRatio (%d)"
      [.int o.l0StopTables, .int o.tierRatio]
  else if o.maxLevels < 1 ∨ defaultMaxLevels < o.maxLevels then
    reject "levisdb: MaxLevels must be in [1, %d], got %d" [.int defaultMaxLevels, .int o.maxLevels]
  else if o.fileSizeBase < 1 then
    reject "levisdb: FileSizeBase must be positive, got %d" [.int o.fileSizeBase]
  else if o.fileSizeMultiplier < 1 then
    reject "levisdb: FileSizeMultiplier must be >= 1, got %d" [.int o.fileSizeMultiplier]
  else if o.fileSizeMax < o.fileSizeBase then
    reject "levisdb: FileSizeMax (%d) must be >= FileSizeBase (%d)"
      [.int o.fileSizeMax, .int o.fileSizeBase]
  else if o.bloomBits < 1 then
    reject "levisdb: BloomBits must be positive, got %d" [.int o.bloomBits]
  else if o.blockSize < 1 then
    reject "levisdb: BlockSize must be positive, got %d" [.int o.blockSize]
  else if o.blockCacheSize < 0 then
    reject "levisdb: BlockCacheSize must be non-negative, got %d" [.int o.blockCacheSize]
  else .ok ()

def validateSegments (o : Options) : Except Err Unit :=
  if o.walSegmentBytes < 1 then
    reject "levisdb: WALSegmentBytes must be positive, got %d" [.int o.walSegmentBytes]
  else .ok ()

def validateCodecs (o : Options) : Except Err Unit :=
  if o.freshCodec ∉ validCodecs then
    reject "levisdb: unknown FreshCodec %q" [.string o.freshCodec]
  else if o.bottomCodec ∉ validCodecs then
    reject "levisdb: unknown BottomCodec %q" [.string o.bottomCodec]
  else
    match o.levelCodecs.zipIdx.find? fun c => decide (c.1 ≠ "" ∧ c.1 ∉ validCodecs) with
    | some (name, d) => reject "levisdb: unknown LevelCodecs[%d] %q" [.int d, .string name]
    | none => .ok ()

/-- The checks, in the order the first failure is reported. -/
def validate (o : Options) : Except Err Unit :=
  if o.dir = "" then reject "levisdb: Dir is required" []
  else if o.memtableSize < 1 then
    reject "levisdb: MemtableSize must be positive, got %d" [.int o.memtableSize]
  else if maxMemtableSize < o.memtableSize then
    reject "levisdb: MemtableSize must be <= %d (skiplist arena uses uint32 offsets), got %d"
      [.int maxMemtableSize, .int o.memtableSize]
  else if o.tierRatio < 2 then
    reject "levisdb: TierRatio must be >= 2, got %d" [.int o.tierRatio]
  else do
    o.validateRatio
    o.validateSizes
    o.validateNonNegative
    o.validateSegments
    o.validateCodecs

/-- What `validate` establishes for the compactor. -/
structure Accepted (o : Options) : Prop where
  tierRatio : 2 ≤ o.tierRatio
  stop : 0 < o.l0StopTables → o.tierRatio ≤ o.l0StopTables
  maxLevels : 1 ≤ o.maxLevels ∧ o.maxLevels ≤ defaultMaxLevels

theorem validateSizes_eq_ok {o : Options} (h : o.validateSizes = .ok ()) :
    (0 < o.l0StopTables → o.tierRatio ≤ o.l0StopTables) ∧
      1 ≤ o.maxLevels ∧ o.maxLevels ≤ defaultMaxLevels := by
  unfold validateSizes reject at h
  split_ifs at h with h₁ h₂ h₃
  refine ⟨fun hpos => ?_, ?_, ?_⟩ <;> omega

theorem accepted_of_validate {o : Options} (h : o.validate = .ok ()) : o.Accepted := by
  unfold validate reject at h
  split_ifs at h with h₁ h₂ h₃ h₄
  obtain ⟨_, _, h⟩ := Except.bind_eq_ok.1 h
  obtain ⟨_, hsizes, _⟩ := Except.bind_eq_ok.1 h
  obtain ⟨hstop, hlevels⟩ := validateSizes_eq_ok hsizes
  exact ⟨by omega, hstop, hlevels⟩

end Options

def defaultOptions : Options :=
  ⟨"db", 0, 0, 0, some 0, 0, 0, 0, 0, 0, 0, 0, 0, false, 0, 0, 0, 0, 0, 0, "", "",
    [], 0, 0, 0, 0, 0⟩

example : defaultOptions.fillDefaults.validate = .ok () := by decide +kernel

end LevisDB
