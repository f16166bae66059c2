import LogCodec.Proofs.Probes
import LogCodec.Proofs.TrueHits
import Mathlib.Algebra.BigOperators.Group.List.Basic

/-!
# `LogCodec.Proofs.FalseHits`: which messages are found although they do not match

A probe finds a message as soon as the logtype has the ends and so many bytes between them; it matches the text only if
the text has that many bytes there as well.  Such probes show what a message has to be like to be found by nothing else
than what it matches: no variable may be longer than its placeholder, no byte of static text may take an escape, and no
variable may be taken for another of its kind.  A message that is like this is found by nothing else, so that these
messages are known exactly.

## Contents
- `EncodedMessage.mem_variables_iff` and `exists_cut_at_variable`: variables of a message as tokens of the text.
- **Tokens of one byte.** `isVariableAfter_of_cell_eq`: what makes one of them a variable does so for all of its kind.
- **What is found by mistake.** `finds_of_shown`, what a probe finds, and for `FindsOnlyMatches` `exists_between`, what
  that says of a text; from it `length_bytes_of_mem`, `unescaped` and `eq_of_cell_eq`.
- `finds_only_matches_iff`, the result, and `finds_unmatched_number`, a text that is found and does not match.
-/

namespace LogCodec

namespace EncodedMessage

section

variable {schema : Schema} {width : Width} {text : Bytes} {e : EncodedMessage} (hlocal : schema.IsLocal)
  (he : encode width schema.locator text = .ok e)
include hlocal he

/-- The variables of a message are what the tokens of the text that are variables are encoded as. -/
theorem mem_variables_iff {a : Atom} :
    a ∈ e.variables ↔ ∃ t, .token t ∈ schema.fields id text ∧ a = .ofToken width t := by
  rw [EncodedMessage.variables, List.mem_filter, (atoms_of_encode hlocal he).1, List.mem_map]
  constructor
  · rintro ⟨⟨field, hfield, rfl⟩, hvariable⟩
    cases field with
    | byte b => cases hvariable
    | token t => exact ⟨t, hfield, rfl⟩
  · rintro ⟨t, ht, rfl⟩
    exact ⟨⟨.token t, ht, rfl⟩, Atom.isVariable_ofToken width t⟩

/-- A message is cut where its text is cut at a variable. -/
theorem exists_cut_at_variable {t : Bytes} {front back : List (Field UInt8)}
    (hfields : schema.fields id text = front ++ .token t :: back) :
    ∃ left right, text = left ++ (t ++ right) ∧ schema.IsClosed left ∧ schema.EndsToken right ∧
      (∀ b ∈ t, schema.isDelimiter b = false) ∧ Query.isVariableAfter schema left.getLast? t = true ∧
      back = schema.fields id right ∧
      e.atoms = schema.atoms width left ++ .ofToken width t :: schema.atoms width right := by
  obtain ⟨left, right, htext, rfl, hback, hclosed, hends, -, hmembers, hvariable⟩ :=
    Schema.exists_cut_at_token (fun a ha => absurd ha List.not_mem_nil) hfields
  rw [Option.map_id, List.map_id, Option.or_none] at hvariable
  refine ⟨left, right, htext, hclosed, hends, hmembers, hvariable, hback none, ?_⟩
  rw [(atoms_of_encode hlocal he).1, hfields, hback none, List.map_append]
  rfl

end

end EncodedMessage

namespace Query

/-! ## Tokens of one byte -/

/-- A byte is packed if it is a digit. -/
theorem isSome_pack_byte (width : Width) (b : UInt8) : (width.pack [b]).isSome = Bytes.isDigit b := by
  -- There are few enough bytes to try them all.
  have hall : ∀ i : Fin 256, (width.pack [UInt8.ofNat i.val]).isSome = Bytes.isDigit (UInt8.ofNat i.val) := by
    cases width with
    | eight => decide +kernel
    | four => decide +kernel
  have hb := hall ⟨b.toNat, b.toNat_lt⟩
  rwa [UInt8.ofNat_toNat] at hb

theorem isDigit_eq_of_cell_eq {width : Width} {b c : UInt8}
    (h : (Atom.ofToken width [c]).cell = (Atom.ofToken width [b]).cell) : Bytes.isDigit c = Bytes.isDigit b := by
  rw [← isSome_pack_byte width c, ← isSome_pack_byte width b]
  unfold Atom.ofToken at h
  cases hb : width.pack [b] with
  | none =>
    cases hc : width.pack [c] with
    | none => rfl
    | some packed =>
      rw [hb, hc] at h
      cases h
  | some packed =>
    cases hc : width.pack [c] with
    | none =>
      rw [hb, hc] at h
      cases h
    | some other => rfl

theorem isVariableAfter_byte (before : Option UInt8) (b : UInt8) :
    isVariableAfter .standard before [b] =
      (Bytes.isDigit b || (before == some (Bytes.ofChar '=') && Bytes.isLetter b)) := by
  show Schema.isStandardVariable _ = _
  rw [Schema.isStandardVariable, Schema.bytes_between, Schema.before?_between, Schema.isMultiDigitHex]
  simp

/-- Where one byte is a variable, so is every other byte that is a variable of its kind elsewhere. -/
theorem isVariableAfter_of_cell_eq {width : Width} {before elsewhere : Option UInt8} {b c : UInt8}
    (hcell : (Atom.ofToken width [c]).cell = (Atom.ofToken width [b]).cell)
    (hb : isVariableAfter .standard before [b] = true) (hc : isVariableAfter .standard elsewhere [c] = true) :
    isVariableAfter .standard before [c] = true := by
  rw [isVariableAfter_byte, ← isDigit_eq_of_cell_eq hcell] at hb
  rw [isVariableAfter_byte] at hc ⊢
  cases hdigit : Bytes.isDigit c with
  | true => rfl
  | false =>
    rw [hdigit, Bool.false_or, Bool.and_eq_true] at hb hc
    rw [Bool.false_or, hb.1, hc.2]
    rfl

/-! ## What is found by mistake -/

/-- Whatever query without a dangling escape finds the message matches the text. -/
def FindsOnlyMatches (width : Width) (text : Bytes) (e : EncodedMessage) : Prop :=
  ∀ limit query d, Pattern.dropDangling query = query → decompose .standard width limit query = .ok d →
    ∀ s ∈ d.subqueries, s.Finds width e → Wildcard.isMatch query text = true

/-- Every variable that items show meets the condition for it. -/
theorem meets_of_shows {width : Width} {items : List Item} {as : List Atom} (h : List.Forall₂ Item.Shows items as) :
    List.Forall₂ (VariableQuery.Meets width) (Item.conditions items) (as.filter Atom.isVariable) := by
  induction h with
  | nil => exact .nil
  | cons hshows _ ih =>
    cases hshows with
    | byte b => exact ih
    | value text => exact .cons rfl ih
    | number kind word => exact .cons rfl ih

section

variable {as : List Atom}

/-- No atom is written as nothing. -/
theorem length_le_flatMap_wire (as : List Atom) : as.length ≤ (as.flatMap Atom.wire).length := by
  have hone : ∀ count ∈ as.map fun a => a.wire.length, 1 ≤ count := by
    intro count hcount
    obtain ⟨a, -, rfl⟩ := List.mem_map.mp hcount
    exact a.length_wire_pos
  have hsum := List.length_le_sum_of_one_le _ hone
  rwa [List.length_map, ← List.length_flatMap] at hsum

/-- Where there is one byte for every atom, nothing is escaped. -/
theorem unescaped_of_length_le (h : (as.flatMap Atom.wire).length ≤ as.length) : Unescaped as := by
  intro b hb
  by_contra hescaped
  obtain ⟨front, back, rfl⟩ := List.append_of_mem hb
  have hfront := length_le_flatMap_wire front
  have hback := length_le_flatMap_wire back
  have hwire : (Atom.byte b).wire.length = 2 := by
    rw [Atom.wire, Logtype.writeByte, if_pos (Bool.eq_true_of_not_eq_false hescaped)]
    rfl
  rw [List.flatMap_append, List.flatMap_cons, List.length_append, List.length_append, List.length_append,
    List.length_cons, hwire] at h
  omega

end

/-- A subquery that shows the ends of a message, with wildcards between them, finds the message as soon as the logtype
has the ends and so many bytes between them. -/
theorem finds_of_shown {width : Width} {s : Subquery} {e : EncodedMessage} {first last : List Item} {count : Nat}
    {front back : List Atom} {taken : Bytes} (hitems : s.items = first ++ (List.replicate count .any ++ last))
    (hfirst : List.Forall₂ Item.Shows first front) (hlast : List.Forall₂ Item.Shows last back)
    (hlogtype : e.logtype = front.flatMap Atom.wire ++ (taken ++ back.flatMap Atom.wire))
    (htaken : taken.length = count)
    (hvariables : (front.filter Atom.isVariable ++ back.filter Atom.isVariable).Sublist e.variables) :
    s.Finds width e := by
  have hpattern : s.logtypePattern = Pattern.probe (front.flatMap Atom.wire) count (back.flatMap Atom.wire) := by
    rw [Subquery.logtypePattern, hitems, List.flatMap_append, List.flatMap_append, Item.symbols_of_shows hfirst,
      Item.symbols_of_shows hlast, List.flatMap_replicate]
    show _ ++ ((List.replicate count [Symbol.any]).flatten ++ _) = _
    rw [List.flatten_replicate_singleton]
    rfl
  have hconditions : s.conditions = Item.conditions first ++ Item.conditions last := by
    have hnone : (List.replicate count Item.any).filterMap Item.condition? = [] := by
      apply List.filterMap_eq_nil_iff.mpr
      intro item hitem
      rw [List.eq_of_mem_replicate hitem]
      rfl
    show (s.items.filterMap Item.condition?).map (·.map Excerpt.bytes) = _
    rw [hitems, List.filterMap_append, List.filterMap_append, hnone, List.nil_append, List.map_append]
    rfl
  refine ⟨?_, _, hvariables, ?_⟩
  · rw [Wildcard.isMatch_iff, Subquery.logtypeQuery, Pattern.ofBytes_spell, hpattern]
    exact Pattern.matches_probe_iff.mpr ⟨taken, hlogtype, htaken⟩
  · rw [hconditions]
    exact List.rel_append (meets_of_shows hfirst) (meets_of_shows hlast)

namespace FindsOnlyMatches

section

variable {width : Width} {text : Bytes} {e : EncodedMessage}

/-- **Where a logtype has the ends of a text, the text has as many bytes between them as the logtype.** -/
theorem exists_between (h : FindsOnlyMatches width text e) {front back taken : Bytes}
    (hfront : Schema.standard.IsClosed front) (hback : Schema.standard.EndsToken back) (hne : taken ≠ [])
    (hlogtype : e.logtype = (Schema.standard.atoms width front).flatMap Atom.wire ++
      (taken ++ (Schema.standard.atoms width back).flatMap Atom.wire))
    (hvariables : ((Schema.standard.atoms width front).filter Atom.isVariable ++
      (Schema.standard.atoms width back).filter Atom.isVariable).Sublist e.variables) :
    ∃ between, text = front ++ (between ++ back) ∧ between.length = taken.length := by
  obtain ⟨limit, d, hd, s, hs, first, last, hitems, hfirst, hlast⟩ :=
    exists_shown_probe width hfront hback (List.length_pos_iff.mpr hne)
  have hfinds : s.Finds width e := finds_of_shown hitems hfirst hlast hlogtype rfl hvariables
  have hmatch := h limit _ d (Pattern.dropDangling_spell _) hd s hs hfinds
  rw [Wildcard.isMatch_iff, Pattern.ofBytes_spell] at hmatch
  exact Pattern.matches_probe_iff.mp hmatch

variable (h : FindsOnlyMatches width text e)
  (he : EncodedMessage.encode width Schema.standard.locator text = .ok e)
include h he

/-- A variable is no longer than its placeholder. -/
theorem length_bytes_of_mem {a : Atom} (ha : a ∈ e.variables) : (a.bytes width).length = 1 := by
  obtain ⟨t, ht, rfl⟩ := (EncodedMessage.mem_variables_iff Schema.standard_isLocal he).mp ha
  obtain ⟨front, back, hfields⟩ := List.append_of_mem ht
  obtain ⟨left, right, rfl, hclosed, hends, -, -, -, hatoms⟩ :=
    EncodedMessage.exists_cut_at_variable Schema.standard_isLocal he hfields
  have hlogtype : e.logtype = (Schema.standard.atoms width left).flatMap Atom.wire ++
      ([(Atom.ofToken width t).wireByte] ++ (Schema.standard.atoms width right).flatMap Atom.wire) := by
    rw [EncodedMessage.logtype_of_encode Schema.standard_isLocal he, hatoms, List.flatMap_append, List.flatMap_cons,
      Atom.wire_of_isVariable (Atom.isVariable_ofToken width t)]
  have hvariables : ((Schema.standard.atoms width left).filter Atom.isVariable ++
      (Schema.standard.atoms width right).filter Atom.isVariable).Sublist e.variables := by
    rw [← List.filter_append, EncodedMessage.variables, hatoms]
    exact ((List.Sublist.refl _).append (List.sublist_cons_self _ _)).filter _
  obtain ⟨between, htext, hlength⟩ := h.exists_between hclosed hends (List.cons_ne_nil _ _) hlogtype hvariables
  rw [Atom.bytes, Atom.text_ofToken]
  show t.length = 1
  rw [List.append_cancel_right (List.append_cancel_left htext), hlength]
  rfl

/-- No byte of static text takes an escape. -/
theorem unescaped : Unescaped e.atoms := by
  have hone : ∀ a ∈ e.atoms, (a.bytes width).length = 1 := by
    intro a ha
    by_cases hvariable : a.isVariable = true
    · exact h.length_bytes_of_mem he (List.mem_filter.mpr ⟨ha, hvariable⟩)
    · obtain ⟨b, rfl⟩ := Atom.eq_byte_of_not_isVariable hvariable
      rfl
  have hbytes : text.length = e.atoms.length := by
    rw [(Atom.text_eq_of_textOf (EncodedMessage.atoms_of_encode Schema.standard_isLocal he).2).1, List.length_flatMap,
      List.map_congr_left hone, List.map_const', List.sum_replicate]
    exact Nat.mul_one _
  have hlogtype := EncodedMessage.logtype_of_encode Schema.standard_isLocal he
  apply unescaped_of_length_le
  rw [← hlogtype]
  by_cases hnil : e.logtype = []
  · rw [hnil]
    exact Nat.zero_le _
  · -- The probe is nothing but wildcards.
    obtain ⟨between, htext, hlength⟩ := h.exists_between (Schema.isClosed_nil _) (Schema.endsToken_nil _) hnil
      (List.append_nil _).symm (List.nil_sublist _)
    rw [← hlength, ← hbytes, htext, List.nil_append, List.append_nil]

/-- A variable may be taken for a later one of its kind, if that would be a variable in its place: the probe has the
later one for the earlier one, and wildcards for all that is behind it. -/
theorem exists_exchanged {front token : Bytes} {d : UInt8} {a : Atom} {behind : List Atom}
    (hatoms : e.atoms = Schema.standard.atoms width front ++ a :: .byte d :: behind)
    (hmem : .ofToken width token ∈ behind) (hcell : (Atom.ofToken width token).cell = a.cell)
    (hclosed : Schema.standard.IsClosed front) (hmembers : ∀ b ∈ token, Schema.standard.isDelimiter b = false)
    (hne : token ≠ []) (hvariable : isVariableAfter .standard front.getLast? token = true)
    (hd : Schema.standard.isDelimiter d = true) : ∃ back, text = front ++ (token ++ d :: back) := by
  have hprobe := Schema.atoms_append_token width hclosed hmembers hne hvariable hd
  have hexchanged : Schema.standard.IsClosed (front ++ (token ++ [d])) := by
    intro b hb
    rw [← List.append_assoc, List.getLast?_concat] at hb
    cases hb
    exact hd
  have hbehind : behind.flatMap Atom.wire ≠ [] := by
    have hlength := length_le_flatMap_wire behind
    have hpos := List.length_pos_of_mem hmem
    exact List.length_pos_iff.mp (Nat.lt_of_lt_of_le hpos hlength)
  have hlogtype : e.logtype = (Schema.standard.atoms width (front ++ (token ++ [d]))).flatMap Atom.wire ++
      (behind.flatMap Atom.wire ++ (Schema.standard.atoms width []).flatMap Atom.wire) := by
    rw [EncodedMessage.logtype_of_encode Schema.standard_isLocal he, hatoms, hprobe, Schema.atoms_nil]
    simp only [List.flatMap_append, List.flatMap_cons, List.flatMap_nil, Atom.wire_eq_of_cell_eq hcell,
      List.append_assoc, List.append_nil]
  have hvariables : ((Schema.standard.atoms width (front ++ (token ++ [d]))).filter Atom.isVariable ++
      (Schema.standard.atoms width []).filter Atom.isVariable).Sublist e.variables := by
    have hkept : [Atom.ofToken width token, .byte d].filter Atom.isVariable = [.ofToken width token] := by
      rw [List.filter_cons_of_pos (Atom.isVariable_ofToken width token)]
      rfl
    rw [hprobe, Schema.atoms_nil, List.filter_append, hkept, List.filter_nil, List.append_nil, EncodedMessage.variables,
      hatoms, List.filter_append]
    apply (List.Sublist.refl _).append
    apply List.singleton_sublist.mpr
    apply List.mem_filter.mpr
    exact ⟨List.mem_cons_of_mem _ (List.mem_cons_of_mem _ hmem), Atom.isVariable_ofToken width token⟩
  obtain ⟨back, htext, -⟩ := h.exists_between hexchanged (Schema.endsToken_nil _) hbehind hlogtype hvariables
  refine ⟨back, ?_⟩
  rw [htext, List.append_nil, List.append_assoc, List.append_assoc]
  rfl

/-- Another variable of the kind of an earlier one is the same. -/
theorem eq_of_later {t u : Bytes} {front back : List (Field UInt8)}
    (hfields : Schema.standard.fields id text = front ++ .token t :: back) (hmem : .token u ∈ back)
    (hcell : (Atom.ofToken width u).cell = (Atom.ofToken width t).cell) : u = t := by
  have hone : ∀ token, .token token ∈ Schema.standard.fields id text → ∃ b, token = [b] := by
    intro token htoken
    have hmem := (EncodedMessage.mem_variables_iff Schema.standard_isLocal he).mpr ⟨token, htoken, rfl⟩
    have hlength := h.length_bytes_of_mem he hmem
    rw [Atom.bytes, Atom.text_ofToken] at hlength
    exact List.length_eq_one_iff.mp hlength
  obtain ⟨b, rfl⟩ := hone t (by rw [hfields]; exact List.mem_append_right front List.mem_cons_self)
  obtain ⟨c, rfl⟩ := hone u (by rw [hfields]; exact List.mem_append_right front (List.mem_cons_of_mem _ hmem))
  -- What makes the later token a variable makes it one in the place of the earlier one.
  obtain ⟨between, last, rfl⟩ := List.append_of_mem hmem
  have hlater : Schema.standard.fields id text = (front ++ .token [b] :: between) ++ .token [c] :: last := by
    rw [hfields, List.append_assoc]
    rfl
  obtain ⟨_, _, -, -, -, hmembers, hc, -, -⟩ :=
    EncodedMessage.exists_cut_at_variable Schema.standard_isLocal he hlater
  obtain ⟨left, right, htext, hclosed, hends, -, hb, hback, hatoms⟩ :=
    EncodedMessage.exists_cut_at_variable Schema.standard_isLocal he hfields
  have hvariable := isVariableAfter_of_cell_eq hcell hb hc
  obtain ⟨d, hd, later, hright, hlaterMem⟩ := Schema.exists_delimiter_of_mem hends (hback ▸ hmem)
  have hatomsRight : Schema.standard.atoms width right = .byte d :: later.map (Field.atom width) := by
    rw [Schema.atoms, hright]
    rfl
  rw [hatomsRight] at hatoms
  obtain ⟨taken, hsame⟩ := h.exists_exchanged he hatoms (List.mem_map_of_mem hlaterMem) hcell hclosed hmembers
    (List.cons_ne_nil c []) hvariable hd
  rw [htext] at hsame
  rw [(List.cons.inj (List.append_cancel_left hsame)).1]

/-- Variables of one kind are alike. -/
theorem eq_of_cell_eq {a other : Atom} (ha : a ∈ e.variables) (hother : other ∈ e.variables)
    (hcell : other.cell = a.cell) : other = a := by
  obtain ⟨t, ht, rfl⟩ := (EncodedMessage.mem_variables_iff Schema.standard_isLocal he).mp ha
  obtain ⟨u, hu, rfl⟩ := (EncodedMessage.mem_variables_iff Schema.standard_isLocal he).mp hother
  obtain ⟨front, back, hfields⟩ := List.append_of_mem ht
  rw [hfields, List.mem_append, List.mem_cons] at hu
  rcases hu with hfront | hsame | hback
  · obtain ⟨first, between, rfl⟩ := List.append_of_mem hfront
    rw [List.append_assoc, List.cons_append] at hfields
    rw [h.eq_of_later he hfields (List.mem_append_right between List.mem_cons_self) hcell.symm]
  · rw [Field.token.inj hsame]
  · rw [h.eq_of_later he hfields hback hcell]

end

end FindsOnlyMatches

/-- **Which messages are found by nothing but what they match.**  If no byte of static text takes an escape, a subquery
that asks for every variable finds a message only if the query matches its text.  And all queries find only messages
that they match exactly if, besides, every variable is one byte long and variables of one kind do not differ. -/
theorem finds_only_matches_iff {width : Width} {text : Bytes} {e : EncodedMessage}
    (he : EncodedMessage.encode width Schema.standard.locator text = .ok e) :
    (Unescaped e.atoms → ∀ limit query d, Pattern.dropDangling query = query →
        decompose .standard width limit query = .ok d →
          ∀ s ∈ d.subqueries, s.conditions.length = e.variables.length → s.Finds width e →
            Wildcard.isMatch query text = true) ∧
      (FindsOnlyMatches width text e ↔
        Unescaped e.atoms ∧ (∀ a ∈ e.variables, (a.bytes width).length = 1) ∧
          ∀ a ∈ e.variables, ∀ other ∈ e.variables, other.cell = a.cell → other = a) := by
  refine ⟨?_, ?_, ?_⟩
  · intro hunescaped limit query d hquery hd s hs hall hfinds
    exact isMatch_of_finds_all Schema.standard_isLocal he hunescaped hquery hd hs hfinds hall
  · intro h
    refine ⟨h.unescaped he, ?_, ?_⟩
    · intro a ha
      exact h.length_bytes_of_mem he ha
    · intro a ha other hother hcell
      exact h.eq_of_cell_eq he ha hother hcell
  · rintro ⟨hunescaped, hone, halike⟩ limit query d hquery hd s hs hfinds
    exact isMatch_of_finds_alike Schema.standard_isLocal he hunescaped hquery hd hs hfinds hone halike

/-- The text `a 1` has one variable, of one byte, so that it is found by nothing else than what it matches. -/
theorem finds_only_matches_iff_space :
    ∃ e, EncodedMessage.encode .eight Schema.standard.locator [0x61, 0x20, 0x31] = .ok e ∧
      FindsOnlyMatches .eight [0x61, 0x20, 0x31] e := by
  have he : EncodedMessage.encode .eight Schema.standard.locator [0x61, 0x20, 0x31] =
      .ok (.ofAtoms [.byte 0x61, .byte 0x20, .number .integer 1]) := by
    rw [EncodedMessage.encode_eq Schema.standard_isLocal, if_neg (by decide)]
    decide
  have hatoms : (EncodedMessage.ofAtoms [.byte 0x61, .byte 0x20, .number .integer 1]).atoms =
      [.byte 0x61, .byte 0x20, .number .integer 1] := EncodedMessage.atoms_ofAtoms _
  have hvariables : (EncodedMessage.ofAtoms [.byte 0x61, .byte 0x20, .number .integer 1]).variables =
      [.number .integer 1] := by
    rw [EncodedMessage.variables, hatoms]
    rfl
  refine ⟨_, he, (finds_only_matches_iff he).2.mpr ⟨?_, ?_, ?_⟩⟩
  · intro b hb
    rw [hatoms] at hb
    rcases hb with _ | ⟨_, _ | ⟨_, _ | ⟨_, _ | _⟩⟩⟩ <;> rfl
  · rw [hvariables]
    intro a ha
    have htext : (Atom.number .integer 1).text .eight = .ok [0x31] := Atom.text_ofToken .eight [0x31]
    rw [List.mem_singleton.mp ha, Atom.bytes, htext]
    rfl
  · rw [hvariables]
    decide

/-- The query `?` finds the text `12`, whose logtype is one placeholder, and does not match it. -/
theorem finds_unmatched_number :
    Wildcard.isMatch [0x3F] [0x31, 0x32] = false ∧ Pattern.dropDangling [0x3F] = [0x3F] ∧
      ∃ d, decompose .standard .eight 4096 [0x3F] = .ok d ∧
        ∃ e, EncodedMessage.encode .eight Schema.standard.locator [0x31, 0x32] = .ok e ∧
          ∃ s ∈ d.subqueries, s.Finds .eight e := by
  have hany : (match decompose .standard .eight 4096 [0x3F] with
      | .ok d => d.subqueries.any fun s => Wildcard.isMatch s.logtypeQuery [0x11] && s.conditions.isEmpty
      | .error _ => false) = true := by decide +kernel
  have he : EncodedMessage.encode .eight Schema.standard.locator [0x31, 0x32] =
      .ok (.ofAtoms [.number .integer 12]) := by
    rw [EncodedMessage.encode_eq Schema.standard_isLocal, if_neg (by decide)]
    decide
  refine ⟨by decide, by decide, ?_⟩
  cases hd : decompose .standard .eight 4096 [0x3F] with
  | error failure =>
    rw [hd] at hany
    cases hany
  | ok d =>
    rw [hd] at hany
    obtain ⟨s, hs, hfound⟩ := List.any_eq_true.mp hany
    obtain ⟨hlogtype, hnone⟩ := Bool.and_eq_true_iff.mp hfound
    refine ⟨d, rfl, _, he, s, hs, hlogtype, [], List.nil_sublist _, ?_⟩
    rw [List.isEmpty_iff.mp hnone]
    exact .nil

end Query

end LogCodec
