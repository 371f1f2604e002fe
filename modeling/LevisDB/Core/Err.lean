import LevisDB.Core.Bytes

/-!
# Errors

One constructor per failure the modelled functions can return. A call through
a nil function value, a slice expression out of bounds and a division by zero are not
errors in Go but run-time panics; they have their own constructors so that no theorem
can mistake them for an ordinary result. So has what Go itself goes on at: an offset
subtraction that would wrap, a block read that reaches outside the data area of its file,
and a loop without an end.
-/

namespace LevisDB

/-- An operand of a formatted text; a number that is not one is none. -/
inductive FormatArg where
  | int (n : Int)
  | duration (nanoseconds : Int)
  | float (x : Option Rat)
  | string (s : String)
  deriving DecidableEq, Repr

inductive TableError where
  | fileTooSmall
  | badMagic
  | badIndexHandle
  | badFilterHandle
  | badRangeDelHandle
  | footerPadding
  | metadataLayout
  | rangeDelLayout
  | handleRange
  | blockTooShort
  | blockChecksum
  | unknownCodec (id : Nat)
  | decompress (codec : String)
  | bloomTooShort
  | bloomSize
  | bloomProbes (k : Nat)
  | separatorLength
  | separatorExceeds
  | handleLength
  | handleExceeds
  | badHandle
  | indexHandleRange
  | indexLayout
  | separatorKind (kind : Nat)
  | separatorOrder
  | indexCoverage
  | rangeDelCount
  | rangeDelCountExceeds (count : Nat)
  | rangeDelSeq
  | rangeDelOrder
  | rangeDelTrailing
  | dataTooShort
  | restartCount
  | sharedLength
  | nonSharedLength
  | valueLength
  | sharedExceeds
  | keyExceeds
  | valueExceeds
  | shortKey
  | unknownKind (kind : Nat)
  | blockKeyOrder
  | keyOrder
  deriving DecidableEq, Repr

inductive Err where
  | emptyKey
  | entryTooLarge
  | batchTooLarge
  | invalidTTL
  | invalidRange
  | fileNumberExhausted
  | ttlTruncated
  | ttlInvalid (expiresAt : Time)
  | blobPointerLength (length : Nat)
  | blobRead (num : UInt32) (offset : UInt64)
  | conflictingVersions (source : String) (seq : Nat)
  | conflictingKinds (source : String) (seq : Nat)
  | compactionConflictingKinds (seq : Nat)
  | compactionConflictingValues (seq : Nat)
  | keysOutOfOrder
  | sourceRead (table : Nat)
  | filterPanic
  | wrapped (context : String) (cause : Err)
  | sequenceExhausted
  | walNonIncreasing (seq last : Nat)
  | walEmptyBatch
  | walEmptyKey
  | walInvalidRange
  | walSequenceLimit (seq : Nat)
  | walEntrySize (size limit : Nat)
  | walShortRecord
  | walBadCount
  | walCountExceeds (count : Nat)
  | walSequenceOverflow
  | walTruncatedKind
  | walUnknownKind (kind : Nat)
  | walBadLength
  | walTruncatedData
  | walInvalidExpiration
  | walTrailingBytes
  | journalCorrupt
  | walApplyPanic
  | walObserverPanic
  | walOpenSegment (num : Nat)
  | walMissingUpdates (seq : Nat)
  | walMissingThrough (seq through : Nat)
  | retentionExpired
  | manifestRepeatedIdentity
  | manifestMissingIdentity
  | manifestRegressingLog
  | manifestTableZero
  | manifestTableReused (num : Nat)
  | manifestUnknownTable (num : Nat)
  | manifestBlobReused (num : Nat)
  | manifestUnknownBlob (num : Nat)
  | manifestTrailing
  | manifestDuplicateIdentity
  | manifestBadVersion
  | manifestUnsupportedVersion (version : Nat)
  | manifestDuplicateLastSeq
  | manifestBadLastSeq
  | manifestLastSeqRange
  | manifestBadBoundary
  | manifestBadDelete
  | manifestDeleteRange
  | manifestBadBlob
  | manifestBadBlobSize
  | manifestBadTable
  | manifestUnknownTag (tag : Nat)
  | manifestMissingEnd
  | manifestSizeMismatch (num recorded actual : Nat)
  | noSuchFile (num : Nat)
  | sstKeyOrder
  | sstFinishEmpty
  | sstExternalEmpty
  | ingestRangeDeletes
  | ingestOverlap
  | invalidOptions (format : String) (args : List FormatArg)
  | tableFile (cause : TableError)
  | nilBlobPath
  | sliceBounds
  | divideByZero
  | offsetUnderflow
  | handleOutside
  | endless
  deriving DecidableEq, Repr

@[simp] theorem Except.ok_bind {ε α β : Type} (a : α) (f : α → Except ε β) :
    ((Except.ok a : Except ε α) >>= f) = f a := rfl

@[simp] theorem Except.error_bind {ε α β : Type} (e : ε) (f : α → Except ε β) :
    ((Except.error e : Except ε α) >>= f) = .error e := rfl

theorem Except.toOption_eq_some {ε α : Type} {x : Except ε α} {a : α} (h : x.toOption = some a) :
    x = .ok a := by
  cases x with
  | error e => cases h
  | ok b => exact congrArg _ (Option.some.inj h)

theorem Except.bind_eq_ok {ε α β : Type} {x : Except ε α} {f : α → Except ε β} {b : β} :
    (x >>= f) = .ok b ↔ ∃ a, x = .ok a ∧ f a = .ok b := by
  cases x with
  | error e => simp [bind, Except.bind]
  | ok a => simp [bind, Except.bind]

end LevisDB
