import LevisDB.Lib.Checked

/-!
# Readers

A reader takes a value off the front of a byte string, or fails. It is local
when the bytes it takes alone decide what it returns: whatever follows them, it
returns the same value and leaves what follows; and when it fails, it is not by
a fault.
-/

namespace Reader

variable {ε α β : Type} {fault : ε → Prop}

structure Local (fault : ε → Prop) (read : List UInt8 → Except ε (α × List UInt8)) : Prop where
  uses : ∀ bytes a rest, read bytes = .ok (a, rest) →
    ∃ used, bytes = used ++ rest ∧ ∀ tail, read (used ++ tail) = .ok (a, tail)
  safe : ∀ bytes, Checked.Ends fault (fun _ => True) (read bytes)

theorem local_pure (a : α) :
    Local fault (fun bytes => (.ok (a, bytes) : Except ε (α × List UInt8))) where
  uses bytes b rest h := by
    cases h
    exact ⟨[], rfl, fun _ => rfl⟩
  safe _ := trivial

theorem local_error (err : ε) (herr : ¬ fault err) :
    Local fault (fun _ => (.error err : Except ε (α × List UInt8))) where
  uses bytes b rest h := by cases h
  safe _ := herr

theorem Local.bind {read : List UInt8 → Except ε (α × List UInt8)}
    {next : α → List UInt8 → Except ε (β × List UInt8)} (hread : Local fault read)
    (hnext : ∀ a, Local fault (next a)) :
    Local fault fun bytes => read bytes >>= fun r => next r.1 r.2 where
  uses bytes b rest h := by
    cases hr : read bytes with
    | error err =>
      rw [hr] at h
      cases h
    | ok r =>
      rw [hr] at h
      obtain ⟨used, rfl, hused⟩ := hread.uses bytes r.1 r.2 hr
      obtain ⟨used', hrest, hused'⟩ := (hnext r.1).uses r.2 b rest h
      refine ⟨used ++ used', by rw [hrest, List.append_assoc], fun tail => ?_⟩
      rw [List.append_assoc, hused]
      exact hused' tail
  safe bytes := (hread.safe bytes).bind fun r _ => (hnext r.1).safe r.2

theorem Local.mapError {read : List UInt8 → Except ε (α × List UInt8)} (h : Local fault read)
    (f : ε → ε) (hf : ∀ err, ¬ fault err → ¬ fault (f err)) :
    Local fault fun bytes => (read bytes).mapError f where
  uses bytes a rest hok := by
    cases hr : read bytes with
    | error err =>
      rw [hr] at hok
      cases hok
    | ok r =>
      rw [hr] at hok
      cases hok
      obtain ⟨used, hbytes, hused⟩ := h.uses bytes _ _ hr
      refine ⟨used, hbytes, fun tail => ?_⟩
      rw [hused tail]
      rfl
  safe bytes := (h.safe bytes).mapError hf

theorem Local.ite {p : Prop} [Decidable p] {read read' : List UInt8 → Except ε (α × List UInt8)}
    (h : p → Local fault read) (h' : ¬p → Local fault read') :
    Local fault fun bytes => if p then read bytes else read' bytes := by
  by_cases hp : p
  · simpa only [if_pos hp] using h hp
  · simpa only [if_neg hp] using h' hp

end Reader
