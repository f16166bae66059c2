import LogCodec.Wildcard.Normal
import Mathlib.Data.List.Forall2

/-!
# `LogCodec.Proofs.Coverage`: lists covered by units

A pattern against a byte string, the items of a subquery against an encoded message, the pattern of a logtype against
its bytes: in each case a list of units covers another list, one after the other.  A unit stands for any part of the
list or for a single member, and what kinds of units there are is all that differs.  So the laws are proved once, for
units of any kind.

## Contents
- `Extent`, what a unit stands for, and `Covers`.
- **Cutting.** `covers_append`; stars that take in more (`Covers.extend_left`, `Covers.extend_right`).
- **Equal coverage.** `CoverAlike`, under which two stars are one.
- **Translation.** `covers_map` for units that are made from others; `Covers.flatMap` replaces every unit and every
  member; `Covers.select` picks members for some units.
- **Patterns.** `matches_iff_covers` says that a pattern matches the texts that its symbols cover, and
  `coverAlike_collapse` that collapsing stars changes nothing.
-/

namespace LogCodec

/-- What a unit stands for in the list that it helps to cover. -/
inductive Extent (α : Type) where
  /-- Any part of the list. -/
  | part
  /-- One member, which has to satisfy a condition. -/
  | member (accepts : α → Prop)

/-- The list is made of one piece per unit: any part of it, or one member that the unit accepts. -/
def Covers {σ α : Type} (extent : σ → Extent α) : List σ → List α → Prop
  | [], as => as = []
  | s :: ss, as =>
    match extent s with
    | .part => ∃ taken rest, as = taken ++ rest ∧ Covers extent ss rest
    | .member accepts => ∃ a rest, as = a :: rest ∧ accepts a ∧ Covers extent ss rest

section

variable {σ τ α β : Type} {extent : σ → Extent α} {s t : σ} {ss tt : List σ} {as : List α}

@[simp] theorem covers_nil : Covers extent [] as ↔ as = [] := Iff.rfl

theorem covers_part_cons (hs : extent s = .part) :
    Covers extent (s :: ss) as ↔ ∃ taken rest, as = taken ++ rest ∧ Covers extent ss rest := by
  rw [Covers, hs]

theorem covers_member_cons {accepts : α → Prop} (hs : extent s = .member accepts) :
    Covers extent (s :: ss) as ↔ ∃ a rest, as = a :: rest ∧ accepts a ∧ Covers extent ss rest := by
  rw [Covers, hs]

/-! ## Cutting -/

/-- A list is covered in two steps where the units are cut in two. -/
theorem covers_append :
    Covers extent (ss ++ tt) as ↔
      ∃ front back, as = front ++ back ∧ Covers extent ss front ∧ Covers extent tt back := by
  induction ss generalizing as with
  | nil => simp
  | cons s ss ih =>
    rw [List.cons_append]
    cases hs : extent s with
    | part =>
      simp only [covers_part_cons hs, ih]
      constructor
      · rintro ⟨taken, _, rfl, front, back, rfl, hfront, hback⟩
        exact ⟨taken ++ front, back, (List.append_assoc ..).symm, ⟨taken, front, rfl, hfront⟩, hback⟩
      · rintro ⟨_, back, rfl, ⟨taken, front, rfl, hfront⟩, hback⟩
        exact ⟨taken, front ++ back, List.append_assoc .., front, back, rfl, hfront, hback⟩
    | member accepts =>
      simp only [covers_member_cons hs, ih]
      constructor
      · rintro ⟨a, _, rfl, ha, front, back, rfl, hfront, hback⟩
        exact ⟨a :: front, back, rfl, ⟨a, front, rfl, ha, hfront⟩, hback⟩
      · rintro ⟨_, back, rfl, ⟨a, front, rfl, ha, hfront⟩, hback⟩
        exact ⟨a, front ++ back, rfl, ha, front, back, rfl, hfront, hback⟩

theorem Covers.append {front back : List α} (hfront : Covers extent ss front) (hback : Covers extent tt back) :
    Covers extent (ss ++ tt) (front ++ back) :=
  covers_append.mpr ⟨front, back, rfl, hfront, hback⟩

/-- A star covers any list. -/
theorem covers_part (hs : extent s = .part) (as : List α) : Covers extent [s] as :=
  (covers_part_cons hs).mpr ⟨as, [], (List.append_nil as).symm, rfl⟩

/-- A star in front takes in more. -/
theorem Covers.extend_left (hs : extent s = .part) (h : Covers extent (s :: ss) as) (more : List α) :
    Covers extent (s :: ss) (more ++ as) := by
  obtain ⟨taken, rest, rfl, hrest⟩ := (covers_part_cons hs).mp h
  exact (covers_part_cons hs).mpr ⟨more ++ taken, rest, (List.append_assoc ..).symm, hrest⟩

/-- A star at the end takes in more. -/
theorem Covers.extend_right (hs : extent s = .part) (h : Covers extent (ss ++ [s]) as) (more : List α) :
    Covers extent (ss ++ [s]) (as ++ more) := by
  obtain ⟨front, back, rfl, hfront, _⟩ := covers_append.mp h
  rw [List.append_assoc]
  exact hfront.append (covers_part hs _)

/-- Units that all stand for any part cover every list, if there are any. -/
theorem covers_of_parts (hall : ∀ s ∈ ss, extent s = .part) (hne : ss ≠ []) (as : List α) : Covers extent ss as := by
  induction ss with
  | nil => exact absurd rfl hne
  | cons s ss ih =>
    have hs := hall s List.mem_cons_self
    cases ss with
    | nil => exact covers_part hs as
    | cons t ss =>
      have h := ih (fun t ht => hall t (List.mem_cons_of_mem _ ht)) (List.cons_ne_nil t ss)
      exact (covers_part_cons hs).mpr ⟨[], as, rfl, h⟩

/-! ## Equal coverage -/

/-- The two lists of units cover the same lists. -/
def CoverAlike (extent : σ → Extent α) (ss tt : List σ) : Prop := ∀ as, Covers extent ss as ↔ Covers extent tt as

theorem CoverAlike.refl (ss : List σ) : CoverAlike extent ss ss := fun _ => Iff.rfl

theorem CoverAlike.symm (h : CoverAlike extent ss tt) : CoverAlike extent tt ss := fun as => (h as).symm

theorem CoverAlike.trans {uu : List σ} (h : CoverAlike extent ss tt) (h' : CoverAlike extent tt uu) :
    CoverAlike extent ss uu := fun as => (h as).trans (h' as)

theorem CoverAlike.append {ss' tt' : List σ} (h : CoverAlike extent ss tt) (h' : CoverAlike extent ss' tt') :
    CoverAlike extent (ss ++ ss') (tt ++ tt') := by
  intro as
  simp only [covers_append, h _, h' _]

/-- Two stars are one. -/
theorem coverAlike_parts (hs : extent s = .part) (ht : extent t = .part) :
    CoverAlike extent (s :: t :: ss) (t :: ss) := by
  intro as
  constructor
  · intro h
    obtain ⟨taken, rest, rfl, hrest⟩ := (covers_part_cons hs).mp h
    exact hrest.extend_left ht taken
  · intro h
    exact (covers_part_cons hs).mpr ⟨[], as, rfl, h⟩

theorem CoverAlike.flatMap {f g : τ → List σ} {tt : List τ} (h : ∀ t ∈ tt, CoverAlike extent (f t) (g t)) :
    CoverAlike extent (tt.flatMap f) (tt.flatMap g) := by
  induction tt with
  | nil => exact CoverAlike.refl []
  | cons t tt ih =>
    rw [List.flatMap_cons, List.flatMap_cons]
    exact (h t List.mem_cons_self).append (ih fun u hu => h u (List.mem_cons_of_mem t hu))

/-- Where two parts that meet share a star, it counts once. -/
theorem coverAlike_shared (hs : extent s = .part) :
    CoverAlike extent ((ss ++ [s]) ++ s :: tt) (ss ++ s :: tt) := by
  rw [List.append_assoc]
  exact (CoverAlike.refl ss).append (coverAlike_parts hs hs)

/-! ## Translation -/

/-- Units that are made from others stand for what these are made to stand for. -/
theorem covers_map {f : τ → σ} {tt : List τ} :
    Covers extent (tt.map f) as ↔ Covers (fun t => extent (f t)) tt as := by
  induction tt generalizing as with
  | nil => rfl
  | cons t tt ih =>
    rw [List.map_cons, Covers, Covers]
    simp only [ih]

/-- Every unit is replaced by units, and every member by members.  What replaces a star has to cover everything, and
what replaces another unit has to cover what replaces each member that it accepts. -/
theorem Covers.flatMap {extent' : τ → Extent β} {f : σ → List τ} {g : α → List β}
    (hpart : ∀ s ∈ ss, extent s = .part → ∀ bs, Covers extent' (f s) bs)
    (hmember : ∀ s ∈ ss, ∀ accepts, extent s = .member accepts → ∀ a ∈ as, accepts a → Covers extent' (f s) (g a))
    (h : Covers extent ss as) : Covers extent' (ss.flatMap f) (as.flatMap g) := by
  induction ss generalizing as with
  | nil =>
    rw [covers_nil] at h
    subst h
    rfl
  | cons s ss ih =>
    have ih := @ih
    have hlater : ∀ {t}, t ∈ ss → t ∈ s :: ss := fun ht => List.mem_cons_of_mem _ ht
    cases hs : extent s with
    | part =>
      -- What a star takes in is replaced as a whole, and what replaces the star covers that too.
      obtain ⟨taken, rest, rfl, hrest⟩ := (covers_part_cons hs).mp h
      rw [List.flatMap_append]
      refine (hpart s List.mem_cons_self hs _).append (ih (fun t ht => hpart t (hlater ht)) ?_ hrest)
      exact fun t ht accepts hext a ha => hmember t (hlater ht) accepts hext a (List.mem_append_right _ ha)
    | member accepts =>
      obtain ⟨a, rest, rfl, ha, hrest⟩ := (covers_member_cons hs).mp h
      refine (hmember s List.mem_cons_self accepts hs a List.mem_cons_self ha).append
        (ih (fun t ht => hpart t (hlater ht)) ?_ hrest)
      exact fun t ht accepts hext b hb => hmember t (hlater ht) accepts hext b (List.mem_cons_of_mem _ hb)

/-- Units that accept more cover as well. -/
theorem Covers.imp {extent' : σ → Extent α} (hpart : ∀ s ∈ ss, extent s = .part → extent' s = .part)
    (hmember : ∀ s ∈ ss, ∀ accepts, extent s = .member accepts → ∀ a ∈ as, accepts a → Covers extent' [s] [a])
    (h : Covers extent ss as) : Covers extent' ss as := by
  have hsingle : Covers extent' (ss.flatMap fun s => [s]) (as.flatMap fun a => [a]) := by
    refine h.flatMap ?_ hmember
    intro s hs hext bs
    exact covers_part (hpart s hs hext) bs
  rwa [List.flatMap_singleton', List.flatMap_singleton'] at hsingle

/-- Some of the units select members that satisfy a condition, in order. -/
theorem Covers.select {f : σ → Option τ} {g : α → Option β} {R : τ → β → Prop}
    (hpart : ∀ s, extent s = .part → f s = none)
    (hmember : ∀ s accepts a x, extent s = .member accepts → accepts a → f s = some x → ∃ y, g a = some y ∧ R x y)
    (h : Covers extent ss as) : ∃ found, found.Sublist (as.filterMap g) ∧ List.Forall₂ R (ss.filterMap f) found := by
  induction ss generalizing as with
  | nil => exact ⟨[], List.nil_sublist _, by simp⟩
  | cons s ss ih =>
    cases hs : extent s with
    | part =>
      -- A star selects nothing, so what it takes in is passed over.
      obtain ⟨taken, rest, rfl, hrest⟩ := (covers_part_cons hs).mp h
      obtain ⟨found, hfound, hall⟩ := ih hrest
      refine ⟨found, ?_, by rwa [List.filterMap_cons_none (hpart s hs)]⟩
      rw [List.filterMap_append]
      exact hfound.trans (List.sublist_append_right _ _)
    | member accepts =>
      obtain ⟨a, rest, rfl, ha, hrest⟩ := (covers_member_cons hs).mp h
      obtain ⟨found, hfound, hall⟩ := ih hrest
      cases hf : f s with
      | none =>
        refine ⟨found, hfound.trans ?_, by rwa [List.filterMap_cons_none hf]⟩
        exact (List.sublist_cons_self a rest).filterMap g
      | some x =>
        obtain ⟨y, hy, hR⟩ := hmember s accepts a x hs ha hf
        refine ⟨y :: found, ?_, ?_⟩
        · rw [List.filterMap_cons_some hy]
          exact hfound.cons_cons y
        · rw [List.filterMap_cons_some hf]
          exact hall.cons hR

end

namespace Pattern

/-! ## Patterns -/

/-- What a symbol stands for in a text. -/
def extent : Symbol → Extent UInt8
  | .star => .part
  | .any => .member fun _ => True
  | .literal b => .member (· = b)

/-- A pattern matches the texts that its symbols cover. -/
theorem matches_iff_covers {p : Pattern} {text : Bytes} : Matches p text ↔ Covers extent p text := by
  induction p generalizing text with
  | nil => rfl
  | cons s p ih =>
    cases s with
    | star =>
      show (∃ taken rest, text = taken ++ rest ∧ Matches p rest) ↔
        ∃ taken rest, text = taken ++ rest ∧ Covers extent p rest
      simp only [ih]
    | any =>
      show (∃ b rest, text = b :: rest ∧ Matches p rest) ↔ ∃ b rest, text = b :: rest ∧ True ∧ Covers extent p rest
      simp only [ih, true_and]
    | literal b =>
      show (∃ rest, text = b :: rest ∧ Matches p rest) ↔ ∃ c rest, text = c :: rest ∧ c = b ∧ Covers extent p rest
      simp only [ih]
      constructor
      · rintro ⟨rest, rfl, h⟩
        exact ⟨b, rest, rfl, rfl, h⟩
      · rintro ⟨_, rest, rfl, rfl, h⟩
        exact ⟨rest, rfl, h⟩

/-- A run of literals is covered by its own text and by nothing else. -/
theorem matches_literals_iff {bytes text : Bytes} : Matches (bytes.map .literal) text ↔ text = bytes := by
  induction bytes generalizing text with
  | nil => rfl
  | cons b bytes ih => simp [Matches, ih]

/-- Collapsing stars changes nothing, whatever the other symbols stand for. -/
theorem coverAlike_collapse {α : Type} {extent : Symbol → Extent α} (hstar : extent .star = .part) (p : Pattern) :
    CoverAlike extent (collapse p) p := by
  fun_induction collapse p with
  | case1 p ih => exact ih.trans (coverAlike_parts hstar hstar).symm
  | case2 s p _ ih => exact (CoverAlike.refl [s]).append ih
  | case3 => exact CoverAlike.refl []

theorem matches_collapse {p : Pattern} {text : Bytes} : Matches (collapse p) text ↔ Matches p text := by
  rw [matches_iff_covers, matches_iff_covers]
  exact coverAlike_collapse rfl p text

end Pattern

namespace Wildcard

/-- The normal form of a query matches what the symbols of the query match. -/
theorem isMatch_normalize_iff {query text : Bytes} :
    isMatch (normalize query) text = true ↔ Pattern.Matches (Pattern.ofQuery query) text := by
  rw [isMatch, normalize, Pattern.ofBytes_spell, Pattern.isMatch_iff]

theorem isMatch_iff {pattern text : Bytes} :
    isMatch pattern text = true ↔ Pattern.Matches (Pattern.ofBytes pattern) text :=
  Pattern.isMatch_iff ..

end Wildcard

end LogCodec
