import LogCodec.Proofs.Atom
import LogCodec.Query.Reading
import Mathlib.Data.List.Induction
import Mathlib.Data.List.TakeWhile

/-!
# `LogCodec.Proofs.Fields`: a text as its variable tokens and the bytes between them

Encoding walks through a text with a cursor and skips to the next variable token.  Its result depends on less: the
delimiters cut the text into runs, and each run is a variable or not by its own bytes and the byte before it.  The
fields of a text say so by recursion on the text alone, so that a text can be cut at any delimiter and its fields with
it.

The members of a text are of any type that gives bytes: query matching marks the bytes of a text, and the marks go
along with the fields.

## Contents
- `Field`, and `Schema.fieldsFrom`, which goes on from a run that has been started.
- **Cutting.** `fieldsFrom_append_delimiter`; `exists_cut_at_token`, and `exists_lastRun` for a part that a star takes
  in.
- `Schema.IsLocal`, which says that a token is known by its bytes and the byte before it.
- **Encoding.** `encode_eq`: an encoded message is made of the fields of its text.
-/

namespace LogCodec

open Query

/-- A part of a text under a schema: a member that is static text, or a run of members that is a variable. -/
inductive Field (α : Type) where
  | byte (a : α)
  | token (run : List α)
deriving DecidableEq

namespace Field

variable {α β : Type}

/-- The members of a field. -/
def members : Field α → List α
  | byte a => [a]
  | token run => run

/-- Replaces the members. -/
def map (f : α → β) : Field α → Field β
  | byte a => byte (f a)
  | token run => token (run.map f)

/-- What a field is encoded as. -/
def atom (width : Width) : Field UInt8 → Atom
  | byte b => .byte b
  | token run => .ofToken width run

end Field

namespace Schema

section

variable {α : Type} (schema : Schema) (byte : α → UInt8)

/-- The fields of a run between two delimiters. -/
def runFields (before : Option UInt8) (run : List α) : List (Field α) :=
  if run.isEmpty then []
  else if isVariableAfter schema before (run.map byte) then [.token run] else run.map .byte

/-- The fields of a text that goes on with a run, given the byte before the run. -/
def fieldsFrom (before : Option UInt8) (run : List α) : List α → List (Field α)
  | [] => schema.runFields byte before run
  | a :: text =>
    if schema.isDelimiter (byte a) then
      schema.runFields byte before run ++ .byte a :: fieldsFrom (some (byte a)) [] text
    else fieldsFrom before (run ++ [a]) text

/-- The fields of a text. -/
def fields (text : List α) : List (Field α) := schema.fieldsFrom byte none [] text

end

/-! ## Cutting -/

section

variable {α β : Type} {schema : Schema} {byte : α → UInt8} {before : Option UInt8} {run : List α}

theorem fieldsFrom_delimiter {d : α} (h : schema.isDelimiter (byte d) = true) (text : List α) :
    schema.fieldsFrom byte before run (d :: text) =
      schema.runFields byte before run ++ .byte d :: schema.fieldsFrom byte (some (byte d)) [] text := by
  rw [fieldsFrom, if_pos h]

theorem fieldsFrom_member {a : α} (h : schema.isDelimiter (byte a) = false) (text : List α) :
    schema.fieldsFrom byte before run (a :: text) = schema.fieldsFrom byte before (run ++ [a]) text := by
  rw [fieldsFrom, if_neg (Bool.not_eq_true _ ▸ h)]

/-- Bytes that are no delimiters go on with a run. -/
theorem fieldsFrom_append {more : List α} (h : ∀ a ∈ more, schema.isDelimiter (byte a) = false) (text : List α) :
    schema.fieldsFrom byte before run (more ++ text) = schema.fieldsFrom byte before (run ++ more) text := by
  induction more generalizing run with
  | nil => simp
  | cons a more ih =>
    rw [List.cons_append, fieldsFrom_member (h a List.mem_cons_self), ih fun b hb => h b (List.mem_cons_of_mem _ hb),
      List.append_assoc]
    rfl

/-- A text without delimiters is one run. -/
theorem fieldsFrom_of_members {text : List α} (h : ∀ a ∈ text, schema.isDelimiter (byte a) = false) :
    schema.fieldsFrom byte before run text = schema.runFields byte before (run ++ text) := by
  rw [← List.append_nil text, fieldsFrom_append h, List.append_nil]
  rfl

/-- **A text is cut at a delimiter and its fields with it.** -/
theorem fieldsFrom_append_delimiter {d : α} (h : schema.isDelimiter (byte d) = true) (front back : List α) :
    schema.fieldsFrom byte before run (front ++ d :: back) =
      schema.fieldsFrom byte before run front ++ .byte d :: schema.fieldsFrom byte (some (byte d)) [] back := by
  induction front generalizing before run with
  | nil => exact fieldsFrom_delimiter h back
  | cons a front ih =>
    by_cases ha : schema.isDelimiter (byte a) = true
    · rw [List.cons_append, fieldsFrom_delimiter ha, fieldsFrom_delimiter ha, ih, List.append_assoc]
      rfl
    · rw [Bool.not_eq_true] at ha
      rw [List.cons_append, fieldsFrom_member ha, fieldsFrom_member ha, ih]

theorem runFields_nil (schema : Schema) (byte : α → UInt8) (before : Option UInt8) :
    schema.runFields byte before [] = [] := rfl

theorem runFields_of_static (h : isVariableAfter schema before (run.map byte) = false) :
    schema.runFields byte before run = run.map .byte := by
  unfold runFields
  split
  · next hnil => rw [List.isEmpty_iff.mp hnil]; rfl
  · rw [if_neg (by rw [h]; exact Bool.false_ne_true)]

theorem runFields_of_variable (hne : run ≠ []) (h : isVariableAfter schema before (run.map byte) = true) :
    schema.runFields byte before run = [.token run] := by
  unfold runFields
  rw [if_neg (by simpa using hne), if_pos h]

/-- A text is cut before a delimiter, and at its end. -/
theorem fieldsFrom_append_of_ends {front back : List α}
    (h : ∀ d, back.head? = some d → schema.isDelimiter (byte d) = true) (other : Option UInt8) :
    schema.fieldsFrom byte before run (front ++ back) =
      schema.fieldsFrom byte before run front ++ schema.fieldsFrom byte other [] back := by
  cases back with
  | nil => rw [fieldsFrom, runFields_nil, List.append_nil, List.append_nil]
  | cons d back =>
    have hd := h d rfl
    rw [fieldsFrom_append_delimiter hd, fieldsFrom_delimiter hd]
    rfl

/-- A text is cut behind a delimiter, and at its start. -/
theorem fieldsFrom_append_of_closed {front : List α}
    (h : ∀ d, front.getLast? = some d → schema.isDelimiter (byte d) = true) (back : List α) :
    schema.fieldsFrom byte before [] (front ++ back) =
      schema.fieldsFrom byte before [] front ++
        schema.fieldsFrom byte ((front.getLast?.map byte).or before) [] back := by
  cases front using List.reverseRecOn with
  | nil => rfl
  | append_singleton front d =>
    have hd := h d List.getLast?_concat
    rw [List.append_assoc, List.singleton_append, fieldsFrom_append_delimiter hd, fieldsFrom_append_delimiter hd,
      List.getLast?_concat, List.append_assoc]
    rfl

/-- The fields of a run are a variable only if the run is. -/
theorem eq_of_runFields {t : List α} {front back : List (Field α)}
    (h : schema.runFields byte before run = front ++ .token t :: back) :
    front = [] ∧ t = run ∧ back = [] ∧ run ≠ [] ∧ isVariableAfter schema before (run.map byte) = true := by
  unfold runFields at h
  by_cases hempty : run.isEmpty = true
  · rw [if_pos hempty] at h
    exact absurd h.symm (List.append_ne_nil_of_right_ne_nil front (List.cons_ne_nil _ _))
  · rw [if_neg hempty] at h
    by_cases hvariable : isVariableAfter schema before (run.map byte) = true
    · rw [if_pos hvariable] at h
      obtain ⟨rfl, hcons⟩ | ⟨-, hnil⟩ := List.singleton_eq_append_iff.mp h
      · obtain ⟨htoken, rfl⟩ := List.cons.inj hcons
        refine ⟨rfl, Field.token.inj htoken, rfl, ?_, hvariable⟩
        rintro rfl
        exact hempty rfl
      · cases hnil
    · rw [if_neg hvariable] at h
      have hmem : .token t ∈ run.map Field.byte := by
        rw [h]
        exact List.mem_append_right front List.mem_cons_self
      obtain ⟨a, -, ha⟩ := List.mem_map.mp hmem
      cases ha

/-- **A variable of a text is a token between delimiters.** -/
theorem exists_cut_at_token {text t : List α} {front back : List (Field α)}
    (hrun : ∀ a ∈ run, schema.isDelimiter (byte a) = false)
    (h : schema.fieldsFrom byte before run text = front ++ .token t :: back) :
    ∃ left right, run ++ text = left ++ (t ++ right) ∧ front = schema.fieldsFrom byte before [] left ∧
      (∀ other, back = schema.fieldsFrom byte other [] right) ∧
      (∀ d, left.getLast? = some d → schema.isDelimiter (byte d) = true) ∧
      (∀ d, right.head? = some d → schema.isDelimiter (byte d) = true) ∧
      t ≠ [] ∧ (∀ a ∈ t, schema.isDelimiter (byte a) = false) ∧
      isVariableAfter schema ((left.getLast?.map byte).or before) (t.map byte) = true := by
  induction text generalizing before run front with
  | nil =>
    obtain ⟨rfl, rfl, rfl, hne, hvariable⟩ := eq_of_runFields h
    refine ⟨[], [], rfl, rfl, fun _ => rfl, ?_, ?_, hne, hrun, hvariable⟩
    · intro d hd
      cases hd
    · intro d hd
      cases hd
  | cons a text ih =>
    by_cases ha : schema.isDelimiter (byte a) = true
    · rw [fieldsFrom_delimiter ha] at h
      obtain ⟨later, rfl, hlater⟩ | ⟨fields, hfields, hback⟩ := List.append_eq_append_iff.mp h
      · cases later with
        | nil => cases hlater
        | cons f later =>
          obtain ⟨rfl, htail⟩ := List.cons.inj hlater
          obtain ⟨left, right, rfl, rfl, hright, hclosed, hends, hne, hmembers, hvariable⟩ :=
            ih (fun b hb => absurd hb List.not_mem_nil) htail
          refine ⟨run ++ a :: left, right, ?_, ?_, hright, ?_, hends, hne, hmembers, ?_⟩
          · rw [List.append_assoc]
            rfl
          · rw [fieldsFrom_append hrun, List.nil_append, fieldsFrom_delimiter ha]
          · intro d hd
            rw [List.getLast?_append_cons, List.getLast?_cons] at hd
            cases hleft : left.getLast? with
            | none =>
              rw [hleft] at hd
              cases hd
              exact ha
            | some c =>
              rw [hleft] at hd
              cases hd
              exact hclosed c hleft
          · rw [List.getLast?_append_cons, List.getLast?_cons]
            cases hleft : left.getLast? with
            | none =>
              rw [hleft] at hvariable
              exact hvariable
            | some c =>
              rw [hleft] at hvariable
              exact hvariable
      · cases fields with
        | nil => cases hback
        | cons f fields =>
          obtain ⟨rfl, rfl⟩ := List.cons.inj hback
          obtain ⟨rfl, rfl, rfl, hne, hvariable⟩ := eq_of_runFields hfields
          refine ⟨[], a :: text, rfl, rfl, ?_, ?_, ?_, hne, hrun, hvariable⟩
          · intro other
            rw [fieldsFrom_delimiter ha]
            rfl
          · intro d hd
            cases hd
          · intro d hd
            cases hd
            exact ha
    · rw [Bool.not_eq_true] at ha
      rw [fieldsFrom_member ha] at h
      have hmore : ∀ b ∈ run ++ [a], schema.isDelimiter (byte b) = false := by
        intro b hb
        rcases List.mem_append.mp hb with hb | hb
        · exact hrun b hb
        · obtain rfl := List.mem_singleton.mp hb
          exact ha
      obtain ⟨left, right, htext, hrest⟩ := ih hmore h
      refine ⟨left, right, ?_, hrest⟩
      rw [← htext, List.append_assoc]
      rfl

/-- A run of delimiters is static text. -/
theorem fieldsFrom_delimiters {delimiters : List α} (h : ∀ d ∈ delimiters, schema.isDelimiter (byte d) = true)
    (before : Option UInt8) (text : List α) :
    schema.fieldsFrom byte before [] (delimiters ++ text) =
      delimiters.map .byte ++ schema.fieldsFrom byte ((delimiters.getLast?.map byte).or before) [] text := by
  induction delimiters generalizing before with
  | nil => rfl
  | cons d delimiters ih =>
    rw [List.cons_append, fieldsFrom_delimiter (h d List.mem_cons_self), ih fun b hb => h b (List.mem_cons_of_mem _ hb)]
    cases delimiters with
    | nil => rfl
    | cons e delimiters =>
      rw [List.getLast?_cons_cons, List.getLast?_eq_some_getLast (List.cons_ne_nil e delimiters)]
      rfl

/-- Behind any part of a text there is a run that goes on with the rest; the byte before it is the one there was, or a
delimiter. -/
theorem exists_lastRun (schema : Schema) (byte : α → UInt8) (before : Option UInt8) (run part : List α) :
    ∃ front before' run', (before' = before ∨ ∃ d, schema.isDelimiter d = true ∧ before' = some d) ∧
      ∀ text, schema.fieldsFrom byte before run (part ++ text) =
        front ++ schema.fieldsFrom byte before' run' text := by
  induction part generalizing before run with
  | nil => exact ⟨[], before, run, .inl rfl, fun _ => rfl⟩
  | cons a part ih =>
    by_cases ha : schema.isDelimiter (byte a) = true
    · obtain ⟨front, before', run', hbefore, htext⟩ := ih (some (byte a)) []
      refine ⟨schema.runFields byte before run ++ .byte a :: front, before', run', .inr ?_, fun text => ?_⟩
      · rcases hbefore with rfl | hbefore
        · exact ⟨byte a, ha, rfl⟩
        · exact hbefore
      · rw [List.cons_append, fieldsFrom_delimiter ha, htext, List.append_assoc]
        rfl
    · rw [Bool.not_eq_true] at ha
      obtain ⟨front, before', run', hbefore, htext⟩ := ih before (run ++ [a])
      refine ⟨front, before', run', hbefore, fun text => ?_⟩
      rw [List.cons_append, fieldsFrom_member ha, htext]

/-! ## The text of fields -/

theorem members_runFields : (schema.runFields byte before run).flatMap Field.members = run := by
  unfold runFields
  split
  · next hrun => rw [List.isEmpty_iff.mp hrun]; rfl
  · split
    · simp [Field.members]
    · rw [List.flatMap_map]
      exact List.flatMap_singleton' run

/-- The fields of a text cover it. -/
theorem members_fieldsFrom (text : List α) :
    (schema.fieldsFrom byte before run text).flatMap Field.members = run ++ text := by
  induction text generalizing before run with
  | nil => rw [fieldsFrom, members_runFields, List.append_nil]
  | cons a text ih =>
    by_cases ha : schema.isDelimiter (byte a) = true
    · rw [fieldsFrom_delimiter ha, List.flatMap_append, List.flatMap_cons, members_runFields, ih]
      rfl
    · rw [Bool.not_eq_true] at ha
      rw [fieldsFrom_member ha, ih, List.append_assoc]
      rfl

/-- Fields are found by the bytes of the members alone. -/
theorem map_fieldsFrom (byte' : β → UInt8) (f : α → β) (hf : ∀ a, byte' (f a) = byte a) (text : List α) :
    (schema.fieldsFrom byte before run text).map (Field.map f) =
      schema.fieldsFrom byte' before (run.map f) (text.map f) := by
  have hbytes : ∀ run : List α, (run.map f).map byte' = run.map byte := by
    intro run
    rw [List.map_map]
    exact List.map_congr_left fun a _ => hf a
  have hrun : ∀ before run, (schema.runFields byte before run).map (Field.map f) =
      schema.runFields byte' before (run.map f) := by
    intro before run
    simp only [runFields, List.isEmpty_map, hbytes]
    split
    · rfl
    · split
      · rfl
      · rw [List.map_map, List.map_map]
        rfl
  induction text generalizing before run with
  | nil => exact hrun before run
  | cons a text ih =>
    rw [List.map_cons]
    by_cases ha : schema.isDelimiter (byte a) = true
    · rw [fieldsFrom_delimiter ha, fieldsFrom_delimiter (by rwa [hf]), List.map_append, List.map_cons, hrun, ih, hf]
      rfl
    · rw [Bool.not_eq_true] at ha
      rw [fieldsFrom_member ha, fieldsFrom_member (by rwa [hf]), ih, List.map_append]
      rfl

end

/-! ## Encoding -/

/-- Whether a token is a variable is said by its bytes and the byte before it. -/
def IsLocal (schema : Schema) : Prop :=
  ∀ token : Token, token.IsWhole → schema.isVariable token = isVariableAfter schema token.before? token.bytes

theorem bytes_between (before : Option UInt8) (run : Bytes) :
    Token.bytes ⟨.between before.toList run, run.length⟩ = run := by
  simp [Token.bytes, Cursor.between]

theorem before?_between (before : Option UInt8) (run : Bytes) :
    Token.before? ⟨.between before.toList run, run.length⟩ = before := by
  cases before <;> rfl

/-- The rules of version 2 look at the bytes of a token and at the byte before it. -/
theorem standard_isVariable_eq (token : Token) :
    standard.isVariable token = isVariableAfter standard token.before? token.bytes := by
  simp only [isVariableAfter, standard, isStandardVariable, bytes_between, before?_between]

/-- The rules of version 2 are local. -/
theorem standard_isLocal : standard.IsLocal := by
  intro token _
  exact standard_isVariable_eq token

/-- By the rules of version 2, bytes that are neither digits nor letters are no variable. -/
theorem standard_static {before : Option UInt8} {run : Bytes}
    (h : ∀ b ∈ run, Bytes.isDigit b = false ∧ Bytes.isLetter b = false ∧ Bytes.isHexDigit b = false) :
    isVariableAfter standard before run = false := by
  have hdigit : run.any Bytes.isDigit = false := List.any_eq_false.mpr fun b hb => by simp [(h b hb).1]
  have hletter : run.any Bytes.isLetter = false := List.any_eq_false.mpr fun b hb => by simp [(h b hb).2.1]
  have hhex : isMultiDigitHex run = false := by
    cases run with
    | nil => rfl
    | cons b run =>
      rw [isMultiDigitHex, List.all_cons, (h b List.mem_cons_self).2.2]
      exact Bool.and_false _
  show isStandardVariable _ = false
  rw [isStandardVariable, bytes_between, hdigit, hletter, hhex]
  simp

/-- Rules given by sets of bytes are local. -/
theorem ofSets_isLocal (delimiters marks leaders : Bytes) : (ofSets delimiters marks leaders).IsLocal := by
  intro token _
  simp only [isVariableAfter, ofSets, bytes_between, before?_between]

section

variable {schema : Schema} {c : Cursor} {token : Token} {run : Bytes}

/-- Behind a token there is a delimiter or nothing. -/
def EndsToken (schema : Schema) (text : Bytes) : Prop := ∀ b, text.head? = some b → schema.isDelimiter b = true

/-- What lies behind a cursor starts with a run of the measured length, and the run is as long as it can be. -/
theorem rest_eq_run (schema : Schema) (delimiters : Bool) (c : Cursor) :
    ∃ run text, c.rest = run ++ text ∧ schema.runLength delimiters c = run.length ∧
      (∀ b ∈ run, schema.isDelimiter b = delimiters) ∧
      ∀ b, text.head? = some b → schema.isDelimiter b = !delimiters := by
  refine ⟨_, _, List.takeWhile_append_dropWhile.symm, rfl, fun b hb => ?_, fun b hb => ?_⟩
  · exact beq_iff_eq.mp (List.mem_takeWhile_imp (p := fun b => schema.isDelimiter b == delimiters) hb)
  · have hhead := List.head?_dropWhile_not (fun b => schema.isDelimiter b == delimiters) c.rest
    rw [hb] at hhead
    simpa [← Bool.eq_not] using hhead

/-- What lies behind a cursor, if there is a token, is delimiters, the token, and what ends the token. -/
theorem nextToken_eq_some (h : schema.nextToken c = some token) :
    ∃ delimiters, c.rest = delimiters ++ (token.bytes ++ token.stop.rest) ∧ token.start = c.advance delimiters.length ∧
      (∀ d ∈ delimiters, schema.isDelimiter d = true) ∧ (∀ a ∈ token.bytes, schema.isDelimiter a = false) ∧
      token.bytes ≠ [] ∧ EndsToken schema token.stop.rest := by
  obtain ⟨delimiters, text, hrest, hlength, hdelimiters, _⟩ := rest_eq_run schema true c
  obtain ⟨run, behind, hstart, hrun, hmembers, hbehind⟩ := rest_eq_run schema false (c.advance delimiters.length)
  have htext : (c.advance delimiters.length).rest = text := by rw [Cursor.rest_advance, hrest, List.drop_left]
  have hbytes : Token.bytes ⟨c.advance delimiters.length, run.length⟩ = run := by
    rw [Token.bytes, hstart, List.take_left]
  have hstop : (Token.stop ⟨c.advance delimiters.length, run.length⟩).rest = behind := by
    rw [Token.stop, Cursor.rest_advance, hstart, List.drop_left]
  simp only [nextToken, hlength, hrun] at h
  split at h
  · cases h
  · next hne =>
    cases h
    rw [hbytes, hstop, ← hstart, htext]
    exact ⟨delimiters, hrest, rfl, hdelimiters, hmembers, fun hnil => hne (by rw [hnil, List.length_nil]), hbehind⟩

/-- What lies behind a cursor, if there is no token, is delimiters. -/
theorem nextToken_eq_none (h : schema.nextToken c = none) : ∀ d ∈ c.rest, schema.isDelimiter d = true := by
  obtain ⟨delimiters, text, hrest, hlength, hdelimiters, htext⟩ := rest_eq_run schema true c
  obtain ⟨run, behind, hstart, hrun, -, hbehind⟩ := rest_eq_run schema false (c.advance delimiters.length)
  simp only [nextToken, hlength, hrun] at h
  split at h
  · next hlength =>
    rw [Cursor.rest_advance, hrest, List.drop_left, List.length_eq_zero_iff.mp hlength, List.nil_append] at hstart
    -- Behind the delimiters there is neither a delimiter nor anything else.
    cases text with
    | nil => rwa [hrest, List.append_nil]
    | cons b text =>
      have hb := htext b rfl
      rw [hbehind b (by rw [← hstart]; rfl)] at hb
      cases hb
  · cases h

theorem before_advance (c : Cursor) (count : Nat) :
    (c.advance count).before = (c.rest.take count).reverse ++ c.before := rfl

theorem rest_start (token : Token) : token.start.rest = token.bytes ++ token.stop.rest :=
  (List.take_append_drop token.length token.start.rest).symm

/-- The fields behind a cursor up to the next token, and behind it. -/
theorem fieldsFrom_nextToken (hlocal : schema.IsLocal) (h : schema.nextToken c = some token) :
    ∃ front, c.rest = front ++ token.start.rest ∧ token.start = c.advance front.length ∧ token.IsWhole ∧
      schema.fieldsFrom id c.before.head? [] c.rest = front.map .byte ++
        ((if schema.isVariable token then [.token token.bytes] else token.bytes.map .byte) ++
          schema.fieldsFrom id token.stop.before.head? [] token.stop.rest) := by
  obtain ⟨delimiters, hrest, hstart, hdelimiters, hbytes, hne, hends⟩ := nextToken_eq_some h
  have hwhole : token.IsWhole := by
    have := nextToken_bounds h
    rw [Token.IsWhole, Token.bytes, List.length_take]
    omega
  have hbefore : (delimiters.getLast?.map id).or c.before.head? = token.before? := by
    rw [Token.before?, hstart, before_advance, hrest, List.take_left, List.head?_append, List.head?_reverse,
      Option.map_id]
    rfl
  have hfields : schema.runFields id token.before? ([] ++ token.bytes) =
      if schema.isVariable token then [.token token.bytes] else token.bytes.map .byte := by
    rw [List.nil_append, runFields, if_neg (by simpa using hne), List.map_id, ← hlocal token hwhole]
  have hdelimiters : ∀ d ∈ delimiters, schema.isDelimiter (id d) = true := hdelimiters
  have hbytes : ∀ a ∈ token.bytes, schema.isDelimiter (id a) = false := hbytes
  have hends : ∀ d, token.stop.rest.head? = some d → schema.isDelimiter (id d) = true := hends
  refine ⟨delimiters, by rw [rest_start, hrest], hstart, hwhole, ?_⟩
  rw [hrest, fieldsFrom_delimiters hdelimiters, hbefore, fieldsFrom_append_of_ends hends token.stop.before.head?,
    fieldsFrom_of_members hbytes, hfields]

theorem advance_advance (c : Cursor) (m n : Nat) : (c.advance m).advance n = c.advance (m + n) := by
  simp only [Cursor.advance, List.take_add, List.reverse_append, List.append_assoc, List.length_append,
    List.drop_drop, Nat.add_assoc]

/-- Without a variable everything behind a cursor is static text. -/
theorem fieldsFrom_of_firstVariable_eq_none (hlocal : schema.IsLocal) (h : schema.firstVariable c = none) :
    schema.fieldsFrom id c.before.head? [] c.rest = c.rest.map .byte := by
  fun_induction firstVariable schema c with
  | case1 c hnone =>
    have hdelimiters : ∀ d ∈ c.rest, schema.isDelimiter (id d) = true := nextToken_eq_none hnone
    have hfields := fieldsFrom_delimiters hdelimiters c.before.head? []
    rw [List.append_nil] at hfields
    rw [hfields]
    exact List.append_nil _
  | case2 => cases h
  | case3 c token htoken hstatic ih =>
    obtain ⟨front, hrest, -, -, hfields⟩ := fieldsFrom_nextToken hlocal htoken
    rw [hfields, ih h, if_neg hstatic, ← List.map_append, ← List.map_append, ← rest_start, ← hrest]

/-- The fields behind a cursor up to the first variable, and behind it. -/
theorem fieldsFrom_of_firstVariable_eq_some (hlocal : schema.IsLocal) (h : schema.firstVariable c = some token) :
    ∃ front, c.rest = front ++ token.start.rest ∧ token.start = c.advance front.length ∧ token.IsWhole ∧
      schema.fieldsFrom id c.before.head? [] c.rest =
        front.map .byte ++ .token token.bytes :: schema.fieldsFrom id token.stop.before.head? [] token.stop.rest := by
  fun_induction firstVariable schema c with
  | case1 => cases h
  | case2 c found hfound hvariable =>
    cases h
    obtain ⟨front, hrest, hstart, hwhole, hfields⟩ := fieldsFrom_nextToken hlocal hfound
    rw [if_pos hvariable] at hfields
    exact ⟨front, hrest, hstart, hwhole, hfields⟩
  | case3 c found hfound hstatic ih =>
    obtain ⟨front, hrest, hstart, hwhole, hfields⟩ := fieldsFrom_nextToken hlocal hfound
    obtain ⟨more, hmore, hnext, hnextWhole, hlater⟩ := ih h
    refine ⟨front ++ (found.bytes ++ more), ?_, ?_, hnextWhole, ?_⟩
    · rw [hrest, rest_start, hmore, List.append_assoc, List.append_assoc]
    · have hlength : found.length = found.bytes.length := hwhole.symm
      rw [hnext, Token.stop, hstart, advance_advance, advance_advance, hlength, List.length_append, List.length_append]
    · rw [hfields, hlater, if_neg hstatic, List.map_append, List.map_append, List.append_assoc, List.append_assoc]

/-- The span of a variable leads back to the variable. -/
theorem eq_of_span {front : Bytes} (hrest : c.rest = front ++ token.start.rest)
    (hstart : token.start = c.advance front.length) :
    c.position + front.length = token.span.start ∧
      Token.mk (c.advance (token.span.start - c.position)) token.span.length = token := by
  have hposition : token.span.start = c.position + front.length := by
    show token.start.position = _
    rw [hstart, Cursor.position_advance, hrest, List.length_append]
    omega
  have hlength : token.span.length = token.length := Nat.add_sub_cancel_left ..
  refine ⟨hposition.symm, ?_⟩
  rw [hposition, Nat.add_sub_cancel_left, ← hstart, hlength]

/-- Cutting a text at the variables of a schema gives the fields of the text. -/
theorem chunksFrom_locator (hlocal : schema.IsLocal) (width : Width) (named : Nat) (c : Cursor) :
    ∃ cs, chunksFrom schema.locator named c = .ok cs ∧ cs.flatMap (Chunk.atoms width) =
      (schema.fieldsFrom id c.before.head? [] c.rest).map (Field.atom width) := by
  fun_induction chunksFrom schema.locator named c with
  | case1 named c hnone =>
    rw [locator, Option.map_eq_none_iff] at hnone
    refine ⟨_, rfl, ?_⟩
    rw [fieldsFrom_of_firstVariable_eq_none hlocal hnone]
    simp [Chunk.atoms, Field.atom]
  | case2 named c span hsome token hgood ih =>
    rw [locator, Option.map_eq_some_iff] at hsome
    obtain ⟨found, hfound, rfl⟩ := hsome
    obtain ⟨front, hrest, hstart, -, hfields⟩ := fieldsFrom_of_firstVariable_eq_some hlocal hfound
    obtain ⟨hposition, htoken⟩ := eq_of_span hrest hstart
    obtain ⟨cs, hcs, hatoms⟩ := ih
    replace htoken : token = found := htoken
    refine ⟨_, by rw [hcs]; rfl, ?_⟩
    rw [htoken] at hatoms
    rw [List.flatMap_cons, List.flatMap_cons, hatoms, htoken, hfields, ← hposition, Nat.add_sub_cancel_left, hrest,
      List.take_left, List.map_append, List.map_map, List.map_cons]
    rfl
  | case3 named c span hsome token hbad =>
    rw [locator, Option.map_eq_some_iff] at hsome
    obtain ⟨found, hfound, rfl⟩ := hsome
    obtain ⟨front, hrest, hstart, hwhole, -⟩ := fieldsFrom_of_firstVariable_eq_some hlocal hfound
    obtain ⟨hposition, htoken⟩ := eq_of_span hrest hstart
    replace htoken : token = found := htoken
    have hlength : found.span.length = found.length := Nat.add_sub_cancel_left ..
    refine absurd ⟨by omega, ?_, by rwa [htoken]⟩ hbad
    rw [hlength]
    exact (firstVariable_bounds hfound).2.1

end

end Schema

/-- The text of the atoms of fields is what the fields cover. -/
theorem Field.textOf_atoms (width : Width) (fields : List (Field UInt8)) :
    Atom.textOf width (fields.map (Field.atom width)) = .ok (fields.flatMap Field.members) := by
  induction fields with
  | nil => rfl
  | cons f fields ih =>
    have hf : (f.atom width).text width = .ok f.members := by
      cases f with
      | byte b => rfl
      | token run => exact Atom.text_ofToken width run
    rw [List.map_cons, Atom.textOf_cons_of_ok hf, ih]
    rfl

namespace EncodedMessage

/-- **A text that is not too long is encoded as its fields.** -/
theorem encode_eq {schema : Schema} (hlocal : schema.IsLocal) (width : Width) (text : Bytes) :
    encode width schema.locator text =
      if maxMessageLength < text.length then .error (.tooLong text.length)
      else .ok (ofAtoms ((schema.fields id text).map (Field.atom width))) := by
  obtain ⟨cs, hcs, hatoms⟩ := Schema.chunksFrom_locator hlocal width 0 (.ofText text)
  have hfields : (Cursor.ofText text).before.head? = none ∧ (Cursor.ofText text).rest = text := ⟨rfl, rfl⟩
  rw [hfields.1, hfields.2, ← Schema.fields] at hatoms
  rw [encode, chunks, hcs]
  split
  · rfl
  · show Except.ok (ofChunks width cs) = _
    rw [ofChunks_eq, hatoms]

/-- The atoms of an encoded text are its fields, and stand for the text. -/
theorem atoms_of_encode {schema : Schema} (hlocal : schema.IsLocal) {width : Width} {text : Bytes} {e : EncodedMessage}
    (he : encode width schema.locator text = .ok e) :
    e.atoms = (schema.fields id text).map (Field.atom width) ∧ Atom.textOf width e.atoms = .ok text := by
  rw [encode_eq hlocal] at he
  split at he
  · cases he
  · cases he
    rw [atoms_ofAtoms]
    refine ⟨rfl, ?_⟩
    rw [Field.textOf_atoms, Schema.fields, Schema.members_fieldsFrom]
    rfl

/-- An encoded text is made of its atoms. -/
theorem ofAtoms_atoms {schema : Schema} (hlocal : schema.IsLocal) {width : Width} {text : Bytes} {e : EncodedMessage}
    (he : encode width schema.locator text = .ok e) : ofAtoms e.atoms = e := by
  rw [encode_eq hlocal] at he
  split at he
  · cases he
  · cases he
    rw [atoms_ofAtoms]

/-- The logtype of an encoded text is what its atoms are written as. -/
theorem logtype_of_encode {schema : Schema} (hlocal : schema.IsLocal) {width : Width} {text : Bytes}
    {e : EncodedMessage} (he : encode width schema.locator text = .ok e) : e.logtype = e.atoms.flatMap Atom.wire := by
  rw [← ofAtoms_atoms hlocal he, atoms_ofAtoms]
  rfl

end EncodedMessage

end LogCodec
