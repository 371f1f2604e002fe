import Mathlib.Order.Basic
import Mathlib.Data.Set.Basic

/-!
# Multi-version stores with span deletions

A store is a set of versions, each a key, a sequence and a payload, together
with a set of half-open key spans deleted as of a sequence.
-/

namespace Mvcc

structure Version (K P : Type*) where
  key : K
  seq : ℕ
  payload : P

structure Span (K : Type*) where
  start : K
  stop : K
  seq : ℕ
  deriving DecidableEq

def Span.Contains {K : Type*} [LinearOrder K] (s : Span K) (k : K) : Prop :=
  s.start ≤ k ∧ k < s.stop

/-- The span hides a version of `k` at `version` from a read at `r`. -/
def Span.Covers {K : Type*} [LinearOrder K] (s : Span K) (k : K) (version r : ℕ) : Prop :=
  s.Contains k ∧ version < s.seq ∧ s.seq ≤ r

instance {K : Type*} [LinearOrder K] (s : Span K) (k : K) : Decidable (s.Contains k) :=
  inferInstanceAs (Decidable (_ ∧ _))

instance {K : Type*} [LinearOrder K] (s : Span K) (k : K) (version r : ℕ) :
    Decidable (s.Covers k version r) :=
  inferInstanceAs (Decidable (_ ∧ _))

@[ext] structure Store (K P : Type*) where
  versions : Set (Version K P)
  spans : Set (Span K)

namespace Store

variable {K P T V : Type*} [LinearOrder K] [Preorder T] {live : P → T → Option V}

instance : Union (Store K P) := ⟨fun A B => ⟨A.versions ∪ B.versions, A.spans ∪ B.spans⟩⟩

omit [LinearOrder K] in
@[simp] theorem mem_union_versions {A B : Store K P} {v : Version K P} :
    v ∈ (A ∪ B).versions ↔ v ∈ A.versions ∨ v ∈ B.versions := Iff.rfl

omit [LinearOrder K] in
@[simp] theorem mem_union_spans {A B : Store K P} {s : Span K} :
    s ∈ (A ∪ B).spans ↔ s ∈ A.spans ∨ s ∈ B.spans := Iff.rfl

omit [LinearOrder K] in
theorem union_assoc (A B C : Store K P) : (A ∪ B) ∪ C = A ∪ (B ∪ C) := by
  ext x
  · simp [or_assoc]
  · simp [or_assoc]

omit [LinearOrder K] in
theorem union_comm (A B : Store K P) : A ∪ B = B ∪ A := by
  ext x
  · simp [or_comm]
  · simp [or_comm]

def IsNewest (S : Store K P) (k : K) (r : ℕ) (v : Version K P) : Prop :=
  v ∈ S.versions ∧ v.key = k ∧ v.seq ≤ r ∧
    ∀ u ∈ S.versions, u.key = k → u.seq ≤ r → u.seq ≤ v.seq

def Uncovered (S : Store K P) (k : K) (version r : ℕ) : Prop :=
  ∀ s ∈ S.spans, ¬ s.Covers k version r

def Sees (live : P → T → Option V) (S : Store K P) (k : K) (r : ℕ) (t : T) (x : V) : Prop :=
  ∃ v, S.IsNewest k r v ∧ live v.payload t = some x ∧ S.Uncovered k v.seq r

/-- A read of `k` at `(r, t)` returns `x` from a version at sequence `n`. -/
def Reads (live : P → T → Option V) (S : Store K P) (k : K) (r : ℕ) (t : T) (n : ℕ)
    (x : V) : Prop :=
  ∃ v, S.IsNewest k r v ∧ live v.payload t = some x ∧ S.Uncovered k v.seq r ∧ v.seq = n

omit [Preorder T] in
theorem sees_iff_reads {S : Store K P} {k : K} {r : ℕ} {t : T} {x : V} :
    S.Sees live k r t x ↔ ∃ n, S.Reads live k r t n x := by
  constructor
  · rintro ⟨v, hv, hlive, hunc⟩
    exact ⟨v.seq, v, hv, hlive, hunc, rfl⟩
  · rintro ⟨_, v, hv, hlive, hunc, _⟩
    exact ⟨v, hv, hlive, hunc⟩

/-- The store holds a mutation of `k` at `n`: a version of it or a span over it. -/
def Touches (S : Store K P) (k : K) (n : ℕ) : Prop :=
  (∃ v ∈ S.versions, v.key = k ∧ v.seq = n) ∨ ∃ s ∈ S.spans, s.Contains k ∧ s.seq = n

theorem touches_union {A B : Store K P} {k : K} {n : ℕ} :
    (A ∪ B).Touches k n ↔ A.Touches k n ∨ B.Touches k n := by
  simp only [Touches, mem_union_versions, mem_union_spans, or_and_right, exists_or]
  exact or_or_or_comm

omit [Preorder T] in
theorem reads_iff {S : Store K P} {k : K} {r : ℕ} {t : T} {n : ℕ} {x : V} :
    S.Reads live k r t n x ↔
      n ≤ r ∧ (∃ v ∈ S.versions, v.key = k ∧ v.seq = n ∧ live v.payload t = some x) ∧
        ∀ m, S.Touches k m → m ≤ r → m ≤ n := by
  constructor
  · rintro ⟨v, ⟨hmem, hk, hvr, hmax⟩, hlive, hunc, rfl⟩
    refine ⟨hvr, ⟨v, hmem, hk, rfl, hlive⟩, fun m hm hmr => ?_⟩
    rcases hm with ⟨u, hu, huk, rfl⟩ | ⟨s, hs, hsk, rfl⟩
    · exact hmax u hu huk hmr
    · exact Nat.le_of_not_lt fun hlt => hunc s hs ⟨hsk, hlt, hmr⟩
  · rintro ⟨hnr, ⟨v, hmem, hk, rfl, hlive⟩, htop⟩
    refine ⟨v, ⟨hmem, hk, hnr, fun u hu huk hur => htop _ (Or.inl ⟨u, hu, huk, rfl⟩) hur⟩, hlive,
      fun s hs hcov => ?_, rfl⟩
    exact Nat.not_lt.2 (htop _ (Or.inr ⟨s, hs, hcov.1, rfl⟩) hcov.2.2) hcov.2.1

omit [Preorder T] in
theorem Reads.touches {S : Store K P} {k : K} {r : ℕ} {t : T} {n : ℕ} {x : V}
    (h : S.Reads live k r t n x) : S.Touches k n := by
  obtain ⟨_, ⟨v, hv, hk, hn, _⟩, _⟩ := reads_iff.1 h
  exact .inl ⟨v, hv, hk, hn⟩

omit [Preorder T] in
theorem reads_union_right {A B : Store K P} {k : K} {r : ℕ} {t : T} {n : ℕ} {x : V}
    (h : ∀ m, ¬ A.Touches k m) : (A ∪ B).Reads live k r t n x ↔ B.Reads live k r t n x := by
  simp only [reads_iff, touches_union, h, false_or, mem_union_versions]
  refine and_congr_right fun _ => and_congr_left fun _ => exists_congr fun v => ?_
  refine and_congr_left fun hv => or_iff_right fun hmem => ?_
  exact h _ (.inl ⟨v, hmem, hv.1, rfl⟩)

omit [Preorder T] in
theorem reads_union_of_apart {A B : Store K P} {k : K} {r : ℕ} {t : T} {n : ℕ} {x : V}
    (h : (∀ m, ¬ A.Touches k m) ∨ ∀ m, ¬ B.Touches k m) :
    (A ∪ B).Reads live k r t n x ↔ A.Reads live k r t n x ∨ B.Reads live k r t n x := by
  rcases h with h | h
  · rw [reads_union_right h, or_iff_right fun hread => h n hread.touches]
  · rw [union_comm, reads_union_right h, or_iff_left fun hread => h n hread.touches]

omit [LinearOrder K] in
theorem exists_newest {S : Store K P} {k : K} {r : ℕ} {v : Version K P}
    (hv : v ∈ S.versions) (hk : v.key = k) (hr : v.seq ≤ r) : ∃ u, S.IsNewest k r u := by
  induction r with
  | zero =>
    refine ⟨v, hv, hk, hr, ?_⟩
    intro u _ _ hu
    omega
  | succ r ih =>
    by_cases htop : ∃ u ∈ S.versions, u.key = k ∧ u.seq = r + 1
    · obtain ⟨u, hu, huk, hus⟩ := htop
      exact ⟨u, hu, huk, by omega, fun w _ _ hw => by omega⟩
    · have hlow : ∀ u ∈ S.versions, u.key = k → u.seq ≤ r + 1 → u.seq ≤ r := by
        intro u hu huk hus
        by_contra hlt
        exact htop ⟨u, hu, huk, by omega⟩
      obtain ⟨u, hu, huk, hus, hmax⟩ := ih (hlow v hv hk hr)
      exact ⟨u, hu, huk, by omega, fun w hw hwk hws => hmax w hw hwk (hlow w hw hwk hws)⟩

omit [LinearOrder K] in
/-- Copies of one mutation are interchangeable for every read from time `T₀` on. -/
def AgreeFrom (live : P → T → Option V) (T₀ : T) (S : Store K P) : Prop :=
  ∀ v ∈ S.versions, ∀ u ∈ S.versions, v.key = u.key → v.seq = u.seq →
    ∀ t, T₀ ≤ t → live v.payload t = live u.payload t

omit [Preorder T] in
theorem sees_congr_below {A B : Store K P} {r : ℕ}
    (hv : ∀ v : Version K P, v.seq ≤ r → (v ∈ A.versions ↔ v ∈ B.versions))
    (hs : ∀ s : Span K, s.seq ≤ r → (s ∈ A.spans ↔ s ∈ B.spans)) {k : K} {t : T} {x : V} :
    A.Sees live k r t x ↔ B.Sees live k r t x := by
  refine exists_congr fun v => and_congr ?_ (and_congr_right fun _ => ?_)
  · constructor
    · rintro ⟨hmem, hk, hvr, hmax⟩
      exact ⟨(hv v hvr).1 hmem, hk, hvr, fun u hu huk hur => hmax u ((hv u hur).2 hu) huk hur⟩
    · rintro ⟨hmem, hk, hvr, hmax⟩
      exact ⟨(hv v hvr).2 hmem, hk, hvr, fun u hu huk hur => hmax u ((hv u hur).1 hu) huk hur⟩
  · constructor
    · exact fun hunc s hsm hcov => hunc s ((hs s hcov.2.2).2 hsm) hcov
    · exact fun hunc s hsm hcov => hunc s ((hs s hcov.2.2).1 hsm) hcov

section Newer

variable {S : Store K P} {n r r' : ℕ} {k : K} {t : T} {x : V}

omit [Preorder T] in
theorem sees_of_bounded (hv : ∀ v ∈ S.versions, v.seq ≤ n) (hs : ∀ s ∈ S.spans, s.seq ≤ n)
    (hr : n ≤ r) (hr' : n ≤ r') (h : S.Sees live k r t x) : S.Sees live k r' t x := by
  obtain ⟨v, ⟨hmem, hk, _, hmax⟩, hlive, hunc⟩ := h
  refine ⟨v, ⟨hmem, hk, Nat.le_trans (hv v hmem) hr', ?_⟩, hlive, ?_⟩
  · exact fun u hu huk _ => hmax u hu huk (Nat.le_trans (hv u hu) hr)
  · exact fun s hsm hcov => hunc s hsm ⟨hcov.1, hcov.2.1, Nat.le_trans (hs s hsm) hr⟩

omit [Preorder T] in
theorem sees_newer_version (hv : ∀ v ∈ S.versions, v.seq ≤ n) (hs : ∀ s ∈ S.spans, s.seq ≤ n)
    {q : Version K P} (hq : n < q.seq) (hr : q.seq ≤ r) (hr' : n ≤ r') :
    (S ∪ ⟨{q}, ∅⟩).Sees live k r t x ↔
      (k = q.key ∧ live q.payload t = some x) ∨ (k ≠ q.key ∧ S.Sees live k r' t x) := by
  have hnr : n ≤ r := by omega
  constructor
  · rintro ⟨v, ⟨hmem, hk, hvr, hmax⟩, hlive, hunc⟩
    by_cases hkq : k = q.key
    · have hle := hmax q (Or.inr rfl) hkq.symm hr
      rcases hmem with hmem | rfl
      · have := hv v hmem
        omega
      · exact Or.inl ⟨hkq, hlive⟩
    · rcases hmem with hmem | rfl
      · refine Or.inr ⟨hkq, sees_of_bounded hv hs hnr hr' ?_⟩
        exact ⟨v, ⟨hmem, hk, hvr, fun u hu => hmax u (Or.inl hu)⟩, hlive,
          fun s hsm => hunc s (Or.inl hsm)⟩
      · exact absurd hk.symm hkq
  · rintro (⟨rfl, hlive⟩ | ⟨hkq, hsees⟩)
    · refine ⟨q, ⟨Or.inr rfl, rfl, hr, ?_⟩, hlive, ?_⟩
      · rintro u (hu | rfl) _ _
        · have := hv u hu
          omega
        · exact Nat.le_refl _
      · rintro s (hsm | hsm) hcov
        · have := hs s hsm
          have := hcov.2.1
          omega
        · exact hsm
    · obtain ⟨v, ⟨hmem, hk, hvr, hmax⟩, hlive, hunc⟩ :=
        sees_of_bounded hv hs hr' hnr hsees
      refine ⟨v, ⟨Or.inl hmem, hk, hvr, ?_⟩, hlive, ?_⟩
      · rintro u (hu | rfl) huk hur
        · exact hmax u hu huk hur
        · exact absurd huk.symm hkq
      · rintro s (hsm | hsm)
        · exact hunc s hsm
        · exact hsm.elim

omit [Preorder T] in
theorem sees_newer_span (hv : ∀ v ∈ S.versions, v.seq ≤ n) (hs : ∀ s ∈ S.spans, s.seq ≤ n)
    {q : Span K} (hq : n < q.seq) (hr : q.seq ≤ r) (hr' : n ≤ r') :
    (S ∪ ⟨∅, {q}⟩).Sees live k r t x ↔ ¬ q.Contains k ∧ S.Sees live k r' t x := by
  have hnr : n ≤ r := by omega
  constructor
  · rintro ⟨v, ⟨hmem, hk, hvr, hmax⟩, hlive, hunc⟩
    rcases hmem with hmem | hmem
    · refine ⟨fun hcon => ?_, sees_of_bounded hv hs hnr hr' ?_⟩
      · have := hv v hmem
        exact hunc q (Or.inr rfl) ⟨hcon, by omega, hr⟩
      · exact ⟨v, ⟨hmem, hk, hvr, fun u hu => hmax u (Or.inl hu)⟩, hlive,
          fun s hsm => hunc s (Or.inl hsm)⟩
    · exact hmem.elim
  · rintro ⟨hcon, hsees⟩
    obtain ⟨v, ⟨hmem, hk, hvr, hmax⟩, hlive, hunc⟩ :=
      sees_of_bounded hv hs hr' hnr hsees
    refine ⟨v, ⟨Or.inl hmem, hk, hvr, ?_⟩, hlive, ?_⟩
    · rintro u (hu | hu) huk hur
      · exact hmax u hu huk hur
      · exact hu.elim
    · rintro s (hsm | rfl) hcov
      · exact hunc s hsm hcov
      · exact hcon hcov.1

end Newer

/-- Every version of `S` restates one of `H`, for all reads from `T₀` on. -/
structure Image (live : P → T → Option V) (T₀ : T) (H S : Store K P) : Prop where
  restates : ∀ v ∈ S.versions, ∃ h ∈ H.versions, h.key = v.key ∧ h.seq = v.seq ∧
    ∀ t, T₀ ≤ t → live v.payload t = live h.payload t
  spans_subset : S.spans ⊆ H.spans

section Image

variable {T₀ : T} {H S : Store K P}

omit [LinearOrder K] in
theorem Image.refl (T₀ : T) (H : Store K P) : Image live T₀ H H :=
  ⟨fun v hv => ⟨v, hv, rfl, rfl, fun _ _ => rfl⟩, fun _ hs => hs⟩

omit [LinearOrder K] in
theorem Image.trans {M : Store K P} {T₁ : T} (h₁ : Image live T₀ H S) (h₂ : Image live T₁ S M)
    (hle : T₀ ≤ T₁) : Image live T₁ H M where
  restates v hv := by
    obtain ⟨u, hu, huk, hus, hul⟩ := h₂.restates v hv
    obtain ⟨x, hx, hxk, hxs, hxl⟩ := h₁.restates u hu
    refine ⟨x, hx, hxk.trans huk, hxs.trans hus, fun t ht => ?_⟩
    rw [hul t ht, hxl t (le_trans hle ht)]
  spans_subset := fun s hs => h₁.spans_subset (h₂.spans_subset hs)

omit [LinearOrder K] in
theorem Image.later (h : Image live T₀ H S) {T₁ : T} (hT : T₀ ≤ T₁) : Image live T₁ H S :=
  h.trans (Image.refl T₁ S) hT

omit [LinearOrder K] in
theorem Image.union {H' S' : Store K P} (h : Image live T₀ H S) (h' : Image live T₀ H' S') :
    Image live T₀ (H ∪ H') (S ∪ S') where
  restates v hv := by
    rcases hv with hv | hv
    · obtain ⟨u, hu, hrest⟩ := h.restates v hv
      exact ⟨u, Or.inl hu, hrest⟩
    · obtain ⟨u, hu, hrest⟩ := h'.restates v hv
      exact ⟨u, Or.inr hu, hrest⟩
  spans_subset := fun s hs => hs.imp (fun hs => h.spans_subset hs) fun hs => h'.spans_subset hs

omit [LinearOrder K] in
theorem Image.agreeFrom (h : Image live T₀ H S) (hH : H.AgreeFrom live T₀) :
    S.AgreeFrom live T₀ := by
  intro v hv u hu hk hseq t ht
  obtain ⟨v', hv', hvk, hvs, hvl⟩ := h.restates v hv
  obtain ⟨u', hu', huk, hus, hul⟩ := h.restates u hu
  rw [hvl t ht, hul t ht]
  exact hH v' hv' u' hu' (by rw [hvk, huk, hk]) (by rw [hvs, hus, hseq]) t ht

theorem Image.touches (h : Image live T₀ H S) {k : K} {n : ℕ} (hn : S.Touches k n) :
    H.Touches k n := by
  rcases hn with ⟨v, hv, hk, hs⟩ | ⟨s, hs, hcon, hsn⟩
  · obtain ⟨u, hu, huk, hus, _⟩ := h.restates v hv
    exact Or.inl ⟨u, hu, huk.trans hk, hus.trans hs⟩
  · exact Or.inr ⟨s, h.spans_subset hs, hcon, hsn⟩

theorem Image.reads (h : Image live T₀ H S) (hback : Image live T₀ S H) {k : K} {r : ℕ} {t : T}
    (ht : T₀ ≤ t) {n : ℕ} {x : V} (hread : S.Reads live k r t n x) : H.Reads live k r t n x := by
  obtain ⟨hnr, ⟨v, hv, hk, hs, hlive⟩, htop⟩ := reads_iff.1 hread
  obtain ⟨u, hu, huk, hus, hul⟩ := h.restates v hv
  refine reads_iff.2 ⟨hnr, ⟨u, hu, huk.trans hk, hus.trans hs, ?_⟩, ?_⟩
  · rw [← hul t ht, hlive]
  · exact fun m hm => htop m (hback.touches hm)

end Image

/-- `O` is what a merge at watermark `w` may leave of `I`. -/
structure Collapse (live : P → T → Option V) (w : ℕ) (T₀ : T) (reclaim : K → Prop)
    (I O : Store K P) : Prop where
  restates : ∀ o ∈ O.versions, ∃ v ∈ I.versions, v.key = o.key ∧ v.seq = o.seq ∧
    ∀ t, T₀ ≤ t → live o.payload t = live v.payload t
  above : ∀ v ∈ I.versions, w < v.seq → ∃ o ∈ O.versions, o.key = v.key ∧ o.seq = v.seq
  newest : ∀ k v, I.IsNewest k w v →
    (∃ o ∈ O.versions, o.key = k ∧ o.seq = v.seq) ∨
      (reclaim k ∧ (∀ o ∈ O.versions, o.key = k → w < o.seq) ∧
        ((∀ t, T₀ ≤ t → live v.payload t = none) ∨ ¬ I.Uncovered k v.seq w))
  spans_subset : O.spans ⊆ I.spans
  spans_dropped : ∀ s ∈ I.spans, s ∉ O.spans → s.seq ≤ w ∧
    ∀ k, s.Contains k → reclaim k ∧ ∀ o ∈ O.versions, o.key = k → s.seq ≤ o.seq

/-- What `R` holds of a reclaimable key outranks all that `I` holds of it. -/
def Outranks (reclaim : K → Prop) (I R : Store K P) : Prop :=
  ∀ k, reclaim k → ∀ q ∈ R.versions, q.key = k →
    (∀ v ∈ I.versions, v.key = k → v.seq < q.seq) ∧ ∀ s ∈ I.spans, s.Contains k → s.seq ≤ q.seq

section Collapse

variable {w : ℕ} {T₀ : T} {reclaim : K → Prop} {I O R : Store K P}

section

variable (hc : Collapse live w T₀ reclaim I O)
include hc

theorem Collapse.newest_at {k : K} {r : ℕ} (hr : w ≤ r)
    {v : Version K P} (hv : I.IsNewest k r v) :
    (∃ o ∈ O.versions, o.key = k ∧ o.seq = v.seq) ∨
      (v.seq ≤ w ∧ reclaim k ∧ (∀ o ∈ O.versions, o.key = k → w < o.seq) ∧
        ((∀ t, T₀ ≤ t → live v.payload t = none) ∨ ¬ I.Uncovered k v.seq w)) := by
  obtain ⟨hmem, hk, hvr, hmax⟩ := hv
  by_cases hw : w < v.seq
  · obtain ⟨o, ho, hok, hos⟩ := hc.above v hmem hw
    exact Or.inl ⟨o, ho, hok.trans hk, hos⟩
  · have hnew : I.IsNewest k w v :=
      ⟨hmem, hk, by omega, fun u hu huk hus => hmax u hu huk (by omega)⟩
    rcases hc.newest k v hnew with hkept | hgone
    · exact Or.inl hkept
    · exact Or.inr ⟨by omega, hgone⟩

theorem Collapse.input_le
    (hrest : ∀ k, reclaim k → ∀ q ∈ R.versions, q.key = k → ∀ v ∈ I.versions, v.key = k →
      v.seq < q.seq) {k : K} {r : ℕ} (hr : w ≤ r) {q : Version K P}
    (hq : (O ∪ R).IsNewest k r q) {v : Version K P} (hv : v ∈ I.versions) (hvk : v.key = k)
    (hvr : v.seq ≤ r) : v.seq ≤ q.seq := by
  obtain ⟨top, htop⟩ := exists_newest hv hvk hvr
  have hle := htop.2.2.2 v hv hvk hvr
  rcases hc.newest_at hr htop with ⟨o, ho, hok, hos⟩ | ⟨hw, hrec, habove, _⟩
  · have := hq.2.2.2 o (Or.inl ho) hok (by have := htop.2.2.1; omega)
    omega
  · rcases hq.1 with hqO | hqR
    · have := habove q hqO hq.2.1
      omega
    · have := hrest k hrec q hqR hq.2.1 top htop.1 htop.2.1
      omega

theorem Collapse.reads_of_reads
    (hagree : (I ∪ R).AgreeFrom live T₀) {k : K} {r : ℕ} (hr : w ≤ r) {t : T} (ht : T₀ ≤ t)
    {n : ℕ} {x : V} (h : (I ∪ R).Reads live k r t n x) : (O ∪ R).Reads live k r t n x := by
  obtain ⟨v, ⟨hmem, hk, hvr, hmax⟩, hlive, hunc, hn⟩ := h
  have hspans : ∀ n, (I ∪ R).Uncovered k n r → (O ∪ R).Uncovered k n r := by
    intro n hn s hs
    rcases hs with hs | hs
    · exact hn s (Or.inl (hc.spans_subset hs))
    · exact hn s (Or.inr hs)
  have hbound : ∀ u ∈ (O ∪ R).versions, u.key = k → u.seq ≤ r → u.seq ≤ v.seq := by
    intro u hu huk hur
    rcases hu with hu | hu
    · obtain ⟨u', hu', hk', hs', _⟩ := hc.restates u hu
      have := hmax u' (Or.inl hu') (hk'.trans huk) (by omega)
      omega
    · exact hmax u (Or.inr hu) huk hur
  rcases hmem with hI | hR
  · have hnew : I.IsNewest k r v :=
      ⟨hI, hk, hvr, fun u hu huk hur => hmax u (Or.inl hu) huk hur⟩
    rcases hc.newest_at hr hnew with ⟨o, ho, hok, hos⟩ | ⟨_, _, _, hdead | hcov⟩
    · obtain ⟨v', hv', hk', hs', hl'⟩ := hc.restates o ho
      have hsame := hagree v' (Or.inl hv') v (Or.inl hI) (by rw [hk', hok, hk]) (by omega) t ht
      refine ⟨o, ⟨Or.inl ho, hok, by omega, ?_⟩, by rw [hl' t ht, hsame, hlive], ?_, hos.trans hn⟩
      · intro u hu huk hur
        have := hbound u hu huk hur
        omega
      · rw [hos]
        exact hspans _ hunc
    · rw [hdead t ht] at hlive
      cases hlive
    · refine absurd ?_ hcov
      intro s hs hcovers
      exact hunc s (Or.inl hs) ⟨hcovers.1, hcovers.2.1, Nat.le_trans hcovers.2.2 hr⟩
  · exact ⟨v, ⟨Or.inr hR, hk, hvr, hbound⟩, hlive, hspans _ hunc, hn⟩

theorem Collapse.reads_back (hrest : Outranks reclaim I R)
    {k : K} {r : ℕ} (hr : w ≤ r) {t : T} (ht : T₀ ≤ t) {n : ℕ}
    {x : V} (h : (O ∪ R).Reads live k r t n x) : (I ∪ R).Reads live k r t n x := by
  obtain ⟨q, hq, hlive, hunc, hn⟩ := h
  have hinput : ∀ v ∈ I.versions, v.key = k → v.seq ≤ r → v.seq ≤ q.seq := by
    intro v hv hvk hvr
    exact hc.input_le (fun k hk q hq hqk => (hrest k hk q hq hqk).1) hr hq hv hvk hvr
  have hbound : ∀ u ∈ (I ∪ R).versions, u.key = k → u.seq ≤ r → u.seq ≤ q.seq := by
    intro u hu huk hur
    rcases hu with hu | hu
    · exact hinput u hu huk hur
    · exact hq.2.2.2 u (Or.inr hu) huk hur
  -- A dropped span is either older than the surviving version or blocked by `hrest`.
  have hcover : (I ∪ R).Uncovered k q.seq r := by
    intro s hs hcov
    rcases hs with hs | hs
    · by_cases hkept : s ∈ O.spans
      · exact hunc s (Or.inl hkept) hcov
      · obtain ⟨_, hdrop⟩ := hc.spans_dropped s hs hkept
        obtain ⟨hrec, hout⟩ := hdrop k hcov.1
        have hlt := hcov.2.1
        rcases hq.1 with hqO | hqR
        · have := hout q hqO hq.2.1
          omega
        · have := (hrest k hrec q hqR hq.2.1).2 s hs hcov.1
          omega
    · exact hunc s (Or.inr hs) hcov
  rcases hq.1 with hqO | hqR
  · obtain ⟨v, hv, hvk, hvs, hvl⟩ := hc.restates q hqO
    refine ⟨v, ⟨Or.inl hv, hvk.trans hq.2.1, by have := hq.2.2.1; omega, ?_⟩, ?_, ?_, hvs.trans hn⟩
    · intro u hu huk hur
      have := hbound u hu huk hur
      omega
    · rw [← hvl t ht, hlive]
    · rw [hvs]
      exact hcover
  · exact ⟨q, ⟨Or.inr hqR, hq.2.1, hq.2.2.1, hbound⟩, hlive, hcover, hn⟩

theorem Collapse.reads_iff (hagree : (I ∪ R).AgreeFrom live T₀)
    (hrest : Outranks reclaim I R)
    {k : K} {r : ℕ} (hr : w ≤ r) {t : T} (ht : T₀ ≤ t) {n : ℕ} {x : V} :
    (I ∪ R).Reads live k r t n x ↔ (O ∪ R).Reads live k r t n x :=
  ⟨hc.reads_of_reads hagree hr ht, hc.reads_back hrest hr ht⟩

theorem Collapse.sees_iff (hagree : (I ∪ R).AgreeFrom live T₀)
    (hrest : Outranks reclaim I R)
    {k : K} {r : ℕ} (hr : w ≤ r) {t : T} (ht : T₀ ≤ t) {x : V} :
    (I ∪ R).Sees live k r t x ↔ (O ∪ R).Sees live k r t x := by
  simp only [sees_iff_reads, hc.reads_iff hagree hrest hr ht]

theorem Collapse.image : Image live T₀ I O := ⟨hc.restates, hc.spans_subset⟩

theorem Collapse.agreeFrom (hagree : (I ∪ R).AgreeFrom live T₀) : (O ∪ R).AgreeFrom live T₀ :=
  (hc.image.union (Image.refl T₀ R)).agreeFrom hagree

end

end Collapse

/-- `S` stands in for the history `H`: it only restates mutations of `H`, and every
read from `(w, T₀)` on resolves alike. -/
structure Summary (live : P → T → Option V) (w : ℕ) (T₀ : T) (H S : Store K P) : Prop where
  image : Image live T₀ H S
  reads : ∀ k r t n x, w ≤ r → T₀ ≤ t → (S.Reads live k r t n x ↔ H.Reads live k r t n x)

section Summary

variable {w : ℕ} {T₀ : T} {H S : Store K P}

theorem Summary.sees (h : Summary live w T₀ H S) {k : K} {r : ℕ} {t : T} {x : V} (hr : w ≤ r)
    (ht : T₀ ≤ t) : S.Sees live k r t x ↔ H.Sees live k r t x := by
  rw [sees_iff_reads, sees_iff_reads]
  exact exists_congr fun n => h.reads k r t n x hr ht

theorem Summary.refl (w : ℕ) (T₀ : T) (H : Store K P) : Summary live w T₀ H H :=
  ⟨Image.refl T₀ H, fun _ _ _ _ _ _ _ => Iff.rfl⟩

section

variable (h : Summary live w T₀ H S)
include h

theorem Summary.mono {w' : ℕ} (hw : w ≤ w') {T₁ : T} (hT : T₀ ≤ T₁) :
    Summary live w' T₁ H S where
  image := h.image.later hT
  reads k r t n x hr ht := h.reads k r t n x (Nat.le_trans hw hr) (le_trans hT ht)

theorem Summary.restate {S' : Store K P} (hto : Image live T₀ S S')
    (hback : Image live T₀ S' S) : Summary live w T₀ H S' where
  image := h.image.trans hto (le_refl T₀)
  reads k r t n x hr ht :=
    ⟨fun hread => (h.reads k r t n x hr ht).1 (hto.reads hback ht hread),
      fun hread => hback.reads hto ht ((h.reads k r t n x hr ht).2 hread)⟩

theorem Summary.congr_live {live' : P → T → Option V}
    (hlive : ∀ v, v ∈ S.versions ∨ v ∈ H.versions → ∀ t, T₀ ≤ t →
      live' v.payload t = live v.payload t) : Summary live' w T₀ H S := by
  have hreads : ∀ {M : Store K P}, (∀ v ∈ M.versions, ∀ t, T₀ ≤ t →
      live' v.payload t = live v.payload t) → ∀ {k r t n x}, T₀ ≤ t →
      (M.Reads live' k r t n x ↔ M.Reads live k r t n x) := by
    intro M hM k r t n x ht
    rw [reads_iff, reads_iff]
    refine and_congr_right fun _ => and_congr_left fun _ => exists_congr fun v => ?_
    refine and_congr_right fun hv => ?_
    rw [hM v hv t ht]
  refine ⟨⟨fun v hv => ?_, h.image.spans_subset⟩, fun k r t n x hr ht => ?_⟩
  · obtain ⟨u, hu, huk, hus, hul⟩ := h.image.restates v hv
    refine ⟨u, hu, huk, hus, fun t ht => ?_⟩
    rw [hlive v (Or.inl hv) t ht, hlive u (Or.inr hu) t ht, hul t ht]
  · rw [hreads (fun v hv => hlive v (Or.inl hv)) ht, hreads (fun v hv => hlive v (Or.inr hv)) ht]
    exact h.reads k r t n x hr ht

theorem Summary.extend {A : Store K P}
    (hdom : ∀ v ∈ A.versions, ∀ r, w ≤ r → ∀ m, H.Touches v.key m → v.seq < m → m ≤ r →
      ∃ m', (S ∪ A).Touches v.key m' ∧ v.seq < m' ∧ m' ≤ r) :
    Summary live w T₀ (H ∪ A) (S ∪ A) := by
  refine ⟨h.image.union (Image.refl T₀ A), fun k r t n x hr ht => ?_⟩
  rw [reads_iff, reads_iff]
  simp only [touches_union]
  constructor
  · rintro ⟨hnr, ⟨v, hv, hk, hs, hlive⟩, htop⟩
    rcases hv with hv | hv
    · have hS : S.Reads live k r t n x :=
        reads_iff.2 ⟨hnr, ⟨v, hv, hk, hs, hlive⟩, fun m hm => htop m (Or.inl hm)⟩
      obtain ⟨_, ⟨u, hu, hrest⟩, hH⟩ := reads_iff.1 ((h.reads k r t n x hr ht).1 hS)
      refine ⟨hnr, ⟨u, Or.inl hu, hrest⟩, fun m hm hmr => ?_⟩
      rcases hm with hm | hm
      · exact hH m hm hmr
      · exact htop m (Or.inr hm) hmr
    · refine ⟨hnr, ⟨v, Or.inr hv, hk, hs, hlive⟩, fun m hm hmr => ?_⟩
      rcases hm with hm | hm
      · by_contra hlt
        obtain ⟨m', hm', hlt', hmr'⟩ := hdom v hv r hr m (hk ▸ hm) (by omega) hmr
        have := htop m' (touches_union.1 (hk ▸ hm')) hmr'
        omega
      · exact htop m (Or.inr hm) hmr
  · rintro ⟨hnr, ⟨v, hv, hk, hs, hlive⟩, htop⟩
    have himage : ∀ m, S.Touches k m ∨ A.Touches k m → m ≤ r → m ≤ n := fun m hm hmr =>
      htop m (hm.imp_left h.image.touches) hmr
    rcases hv with hv | hv
    · have hH : H.Reads live k r t n x :=
        reads_iff.2 ⟨hnr, ⟨v, hv, hk, hs, hlive⟩, fun m hm => htop m (Or.inl hm)⟩
      obtain ⟨_, ⟨u, hu, hrest⟩, _⟩ := reads_iff.1 ((h.reads k r t n x hr ht).2 hH)
      exact ⟨hnr, ⟨u, Or.inl hu, hrest⟩, himage⟩
    · exact ⟨hnr, ⟨v, Or.inr hv, hk, hs, hlive⟩, himage⟩

end

theorem Collapse.weaken {w : ℕ} {T₀ T₁ : T} {reclaim : K → Prop} {I O : Store K P}
    (h : Collapse live w T₀ reclaim I O) (hT : T₀ ≤ T₁) : Collapse live w T₁ reclaim I O where
  restates o ho := by
    obtain ⟨v, hv, hvk, hvs, hvl⟩ := h.restates o ho
    exact ⟨v, hv, hvk, hvs, fun t ht => hvl t (le_trans hT ht)⟩
  above := h.above
  newest k v hv := by
    rcases h.newest k v hv with hkept | ⟨hrec, habove, hdead | hcov⟩
    · exact Or.inl hkept
    · exact Or.inr ⟨hrec, habove, Or.inl fun t ht => hdead t (le_trans hT ht)⟩
    · exact Or.inr ⟨hrec, habove, Or.inr hcov⟩
  spans_subset := h.spans_subset
  spans_dropped := h.spans_dropped

theorem Summary.collapse {w' w₂ : ℕ} {T₁ T₂ : T} {reclaim : K → Prop} {I O R : Store K P}
    (h : Summary live w T₀ H (I ∪ R)) (hH : H.AgreeFrom live T₀)
    (hc : Collapse live w' T₁ reclaim I O)
    (hrest : Outranks reclaim I R)
    (hw : w ≤ w₂) (hw' : w' ≤ w₂) (hT : T₀ ≤ T₂) (hT' : T₁ ≤ T₂) :
    Summary live w₂ T₂ H (O ∪ R) := by
  have hS := h.mono hw hT
  have hc₂ := hc.weaken hT'
  have hagree : (I ∪ R).AgreeFrom live T₂ :=
    hS.image.agreeFrom fun v hv u hu hk hseq t ht => hH v hv u hu hk hseq t (le_trans hT ht)
  refine ⟨hS.image.trans (hc₂.image.union (Image.refl T₂ R)) (le_refl T₂), ?_⟩
  intro k r t n x hr ht
  rw [← hc₂.reads_iff hagree hrest (Nat.le_trans hw' hr) ht]
  exact hS.reads k r t n x hr ht

end Summary

/-- The store in which every version `D` picks is dead. -/
def erase (D : K → ℕ → Prop) (dead : P) (S : Store K P) : Store K P where
  versions := {v | (v ∈ S.versions ∧ ¬ D v.key v.seq) ∨
    (v.payload = dead ∧ D v.key v.seq ∧ ∃ u ∈ S.versions, u.key = v.key ∧ u.seq = v.seq)}
  spans := S.spans

section Erase

variable {D : K → ℕ → Prop} {dead : P} {w : ℕ} {T₀ : T} {H S : Store K P}

omit [LinearOrder K] in
theorem mem_erase_iff {v : Version K P} (hv : v ∈ (S.erase D dead).versions) :
    ∃ u ∈ S.versions, u.key = v.key ∧ u.seq = v.seq := by
  rcases hv with ⟨hv, _⟩ | ⟨_, _, hu⟩
  · exact ⟨v, hv, rfl, rfl⟩
  · exact hu

omit [LinearOrder K] in
theorem exists_mem_erase (D : K → ℕ → Prop) (dead : P) {u : Version K P} (hu : u ∈ S.versions) :
    ∃ v ∈ (S.erase D dead).versions, v.key = u.key ∧ v.seq = u.seq := by
  by_cases hD : D u.key u.seq
  · exact ⟨⟨u.key, u.seq, dead⟩, Or.inr ⟨rfl, hD, u, hu, rfl, rfl⟩, rfl, rfl⟩
  · exact ⟨u, Or.inl ⟨hu, hD⟩, rfl, rfl⟩

theorem touches_erase {k : K} {n : ℕ} : (S.erase D dead).Touches k n ↔ S.Touches k n := by
  refine or_congr_left ⟨?_, ?_⟩
  · rintro ⟨v, hv, hk, hn⟩
    obtain ⟨u, hu, huk, hus⟩ := mem_erase_iff hv
    exact ⟨u, hu, huk.trans hk, hus.trans hn⟩
  · rintro ⟨u, hu, hk, hn⟩
    obtain ⟨v, hv, hvk, hvs⟩ := exists_mem_erase D dead hu
    exact ⟨v, hv, hvk.trans hk, hvs.trans hn⟩

omit [Preorder T] in
theorem reads_erase_iff (hdead : ∀ t, live dead t = none) {k : K} {r : ℕ} {t : T} {n : ℕ} {x : V} :
    (S.erase D dead).Reads live k r t n x ↔ ¬ D k n ∧ S.Reads live k r t n x := by
  rw [reads_iff, reads_iff]
  simp only [touches_erase]
  constructor
  · rintro ⟨hnr, ⟨v, hv, rfl, rfl, hlive⟩, htop⟩
    rcases hv with ⟨hv, hD⟩ | ⟨hpay, _⟩
    · exact ⟨hD, hnr, ⟨v, hv, rfl, rfl, hlive⟩, htop⟩
    · rw [hpay, hdead] at hlive
      cases hlive
  · rintro ⟨hD, hnr, ⟨v, hv, rfl, rfl, hlive⟩, htop⟩
    exact ⟨hnr, ⟨v, Or.inl ⟨hv, hD⟩, rfl, rfl, hlive⟩, htop⟩

omit [LinearOrder K] in
theorem Image.erase (h : Image live T₀ H S) : Image live T₀ (H.erase D dead) (S.erase D dead) where
  restates v hv := by
    rcases hv with ⟨hv, hD⟩ | ⟨hpay, hD, u, hu, huk, hus⟩
    · obtain ⟨p, hp, hpk, hps, hpl⟩ := h.restates v hv
      exact ⟨p, Or.inl ⟨hp, by rwa [hpk, hps]⟩, hpk, hps, hpl⟩
    · obtain ⟨p, hp, hpk, hps, _⟩ := h.restates u hu
      refine ⟨v, Or.inr ⟨hpay, hD, p, hp, hpk.trans huk, hps.trans hus⟩, rfl, rfl, fun _ _ => rfl⟩
  spans_subset := h.spans_subset

theorem Summary.erase (h : Summary live w T₀ H S) (hdead : ∀ t, live dead t = none) :
    Summary live w T₀ (H.erase D dead) (S.erase D dead) where
  image := h.image.erase
  reads k r t n x hr ht := by
    rw [reads_erase_iff hdead, reads_erase_iff hdead, h.reads k r t n x hr ht]

omit [LinearOrder K] in
theorem erase_union (A B : Store K P) :
    (A ∪ B).erase D dead = A.erase D dead ∪ B.erase D dead := by
  ext v
  · simp only [Store.erase, mem_union_versions, Set.mem_ofPred_eq, or_and_right, exists_or,
      and_or_left]
    exact or_or_or_comm
  · rfl

omit [LinearOrder K] in
theorem erase_eq_self (h : ∀ v ∈ S.versions, ¬ D v.key v.seq) : S.erase D dead = S := by
  ext v
  · constructor
    · rintro (⟨hv, _⟩ | ⟨_, hD, u, hu, huk, hus⟩)
      · exact hv
      · exact absurd (by rwa [huk, hus]) (h u hu)
    · exact fun hv => Or.inl ⟨hv, h v hv⟩
  · rfl

end Erase

end Store

end Mvcc
