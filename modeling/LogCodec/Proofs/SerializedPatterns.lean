import LogCodec.Matcher.Serialized
import LogCodec.Proofs.RecordFormat

/-!
# `LogCodec.Proofs.SerializedPatterns`: a matcher is made again from serialized parts

Of a subquery only the patterns for packed numbers are written down, and they are all that its matcher is made of.  What
is written for them is cut again at the end offsets into the same texts, and the placeholder bytes tell the same kinds.
So the matcher from the serialized parts is the one that is made directly, and where the engine refuses a pattern both
ways end with the same error.

## Contents
- **Patterns.** `SubqueryParts.numberPatterns`, and `packedQueries_eq`.
- **Writing.** `foldlM_writeQuery` and `serialize_eq`: what is written, and when there is no room for it.
- **Reading.** `Matcher.cutFrom_eq` and `Matcher.buildSerialized_eq`, for any parts; `Matcher.buildSerialized_ofList`.
- **Both ways.** `SubqueryParts.buildSerialized_serialize`.
-/

namespace LogCodec

/-! ## Patterns -/

namespace Descriptor

/-- The pattern, if it is for a kind of packed number. -/
def numberPattern? : Descriptor → Option (NumberKind × Bytes)
  | pattern (.number kind) text => some (kind, text)
  | _ => none

/-- The descriptor is a pattern for a kind of packed number. -/
def isNumberPattern (d : Descriptor) : Bool := d.numberPattern?.isSome

end Descriptor

/-- A pattern for a kind of packed number, as one for any kind of variable. -/
def packedQuery (p : NumberKind × Bytes) : Placeholder × Bytes := (.number p.1, p.2)

namespace SubqueryParts

/-- The patterns for packed numbers. -/
def numberPatterns (s : SubqueryParts) : List (NumberKind × Bytes) := s.descriptors.filterMap Descriptor.numberPattern?

theorem packedQueries_eq (s : SubqueryParts) : s.packedQueries = s.numberPatterns.map packedQuery := by
  rw [packedQueries, numberPatterns]
  induction s.descriptors with
  | nil => rfl
  | cons d ds ih =>
    -- A descriptor without a pattern is left out at once, and a pattern for dictionary variables by its kind.
    cases d with
    | value text => exact ih
    | number kind value => exact ih
    | pattern kind text =>
      cases kind with
      | dictionary => exact ih
      | number kind => exact congrArg ((Placeholder.number kind, text) :: ·) ih

/-- Other descriptors contribute nothing. -/
theorem numberPatterns_eq_of_filter {s t : SubqueryParts}
    (h : t.descriptors.filter Descriptor.isNumberPattern = s.descriptors.filter Descriptor.isNumberPattern) :
    t.numberPatterns = s.numberPatterns := by
  have hfilter : ∀ ds : List Descriptor,
      (ds.filter Descriptor.isNumberPattern).filterMap Descriptor.numberPattern? =
        ds.filterMap Descriptor.numberPattern? := by
    intro ds
    rw [List.filterMap_filter]
    apply List.filterMap_congr
    intro d _
    cases hpattern : d.numberPattern? with
    | none => exact ite_self none
    | some p => exact if_pos (congrArg Option.isSome hpattern)
  rw [numberPatterns, numberPatterns, ← hfilter, h, hfilter]

/-- The patterns of a subquery that comes from a query. -/
theorem numberPatterns_ofSubquery (s : Subquery) :
    (ofSubquery s).numberPatterns = s.numberPatterns.map fun p => (p.1, p.2.bytes) := by
  rw [numberPatterns, ofSubquery, Subquery.conditions, Subquery.numberPatterns]
  show ((s.variableQueries.map _).map _).filterMap _ = _
  induction s.variableQueries with
  | nil => rfl
  | cons query queries ih =>
    cases query with
    | value text => exact ih
    | number kind value => exact ih
    | pattern kind text =>
      cases kind with
      | dictionary => exact ih
      | number kind => exact congrArg ((kind, text.bytes) :: ·) ih

end SubqueryParts

/-! ## Writing -/

namespace SubqueryParts

/-- **What is written of patterns**, behind others.  There is room for them while all end offsets fit four bytes. -/
theorem foldlM_writeQuery (queries : List (Placeholder × Bytes)) {placeholders : Bytes} {texts : List Bytes}
    (hfits : texts.flatten.length < 0x100000000) :
    queries.foldlM writeQuery (placeholders, .ofList texts) =
      if (texts ++ queries.map Prod.snd).flatten.length < 0x100000000 then
        some (placeholders ++ queries.map fun query => query.1.toByte, .ofList (texts ++ queries.map Prod.snd))
      else none := by
  induction queries generalizing placeholders texts with
  | nil =>
    simp only [List.map_nil, List.append_nil, if_pos hfits]
    rfl
  | cons query queries ih =>
    have hlength : ((FlatBytes.ofList texts).bytes ++ query.2).length = (texts ++ [query.2]).flatten.length := by
      rw [List.flatten_concat]
      rfl
    have hsplit : texts ++ (query :: queries).map Prod.snd = (texts ++ [query.2]) ++ queries.map Prod.snd := by
      rw [List.map_cons, List.append_assoc, List.singleton_append]
    rw [List.foldlM_cons, writeQuery, FlatBytes.Operation.apply, hlength, hsplit]
    by_cases hnext : (texts ++ [query.2]).flatten.length < 0x100000000
    · rw [if_pos hnext, ← FlatBytes.ofList_concat]
      refine (ih hnext).trans ?_
      rw [List.append_assoc placeholders, List.singleton_append, List.map_cons]
    · have hall : ¬ ((texts ++ [query.2]) ++ queries.map Prod.snd).flatten.length < 0x100000000 := by
        rw [List.flatten_append, List.length_append]
        omega
      rw [if_neg hnext, if_neg hall]
      rfl

/-- **What is written of a subquery.** -/
theorem serialize_eq (s : SubqueryParts) :
    s.serialize =
      if (s.numberPatterns.map Prod.snd).flatten.length < 0x100000000 then
        some (s.numberPatterns.map fun p => (Placeholder.number p.1).toByte, .ofList (s.numberPatterns.map Prod.snd))
      else none := by
  have hwritten := @foldlM_writeQuery s.packedQueries [] [] (by decide)
  rw [packedQueries_eq, List.nil_append, List.nil_append, List.map_map, List.map_map] at hwritten
  rw [serialize, packedQueries_eq]
  exact hwritten

end SubqueryParts

/-! ## Reading -/

namespace FlatBytes

section
variable {bytes : Bytes} {ends : List Nat}

theorem ofParts_of_error {cause : OffsetError} (h : checkEnds ends bytes.length = .error cause) :
    ofParts bytes ends = .error cause := by
  unfold ofParts
  split
  · next other hother =>
    rw [h] at hother
    cases hother
    rfl
  · next hok =>
    rw [h] at hok
    cases hok

theorem ofParts_of_ok (h : checkEnds ends bytes.length = .ok ()) :
    ofParts bytes ends = .ok ⟨bytes, ends, checkEndsFrom_eq_ok_iff.mp h⟩ :=
  ofParts_eq_ok_iff.mpr ⟨rfl, rfl⟩

end

/-- End offsets that fit four bytes are the same in them. -/
theorem map_toNat_ends {f : FlatBytes} (h : f.bytes.length < 0x100000000) :
    (f.ends.map UInt32.ofNat).map UInt32.toNat = f.ends := by
  rw [List.map_map]
  refine (List.map_congr_left ?_).trans (List.map_id f.ends)
  intro stop hstop
  have hle : stop ≤ f.bytes.length := f.ends_within.le_of_mem hstop
  exact UInt32.toNat_ofNat_of_lt' (Nat.lt_of_le_of_lt hle h)

end FlatBytes

namespace Matcher

/-- **Every cut lies within the buffer**, and the texts that are cut are the byte strings that the buffer stores.  The
loop may also be looked at before it comes to the last of them. -/
theorem cutFrom_eq {patterns : Bytes} {start : Nat} {placeholders : Bytes} {ends : List UInt32}
    (hwithin : EndsWithin patterns.length start (ends.map UInt32.toNat)) (hlength : placeholders.length ≤ ends.length) :
    cutFrom patterns start (placeholders.zip ends) =
      some ((placeholders.mapM placeholder).map
        (·.zip (FlatBytes.segments (patterns.drop start) start (ends.map UInt32.toNat)))) := by
  induction placeholders generalizing start ends with
  | nil => rfl
  | cons byte placeholders ih =>
    obtain ⟨stop, ends, rfl⟩ := List.exists_cons_of_length_pos (Nat.lt_of_lt_of_le (Nat.succ_pos _) hlength)
    obtain ⟨hstart, hstop, hrest⟩ := hwithin
    rw [List.zip_cons_cons, cutFrom, List.mapM_cons]
    cases hkind : placeholder byte with
    | error cause => rfl
    | ok kind =>
      have hdrop : (patterns.drop start).drop (stop.toNat - start) = patterns.drop stop.toNat := by
        rw [List.drop_drop, Nat.add_sub_cancel' hstart]
      have hcut : (Span.mk start stop.toNat).slice? patterns = some ((Span.mk start stop.toNat).slice patterns) :=
        Span.slice?_of_fits ⟨hstart, hstop⟩
      have hlater := ih hrest (Nat.le_of_succ_le_succ hlength)
      simp only [hcut, hlater, List.map_cons, FlatBytes.segments, hdrop, Option.bind_eq_bind, Option.bind_some]
      cases placeholders.mapM placeholder with
      | error cause => rfl
      | ok kinds => rfl

section
variable {refusal : Bytes → Option String} {width : Width}

/-- Patterns for packed numbers that the engine takes. -/
theorem mapM_compile {ps : List (NumberKind × Bytes)} (h : ∀ p ∈ ps, refusal p.2 = none) :
    (ps.map packedQuery).mapM (compile refusal) = .ok (ps.map fun p => (p.1, Pattern.ofBytes p.2)) := by
  induction ps with
  | nil => rfl
  | cons p ps ih =>
    obtain ⟨hfirst, hlater⟩ := List.forall_mem_cons.mp h
    have hcompile : compile refusal (packedQuery p) = .ok (p.1, Pattern.ofBytes p.2) := by
      rw [packedQuery, compile, hfirst]
    rw [List.map_cons, List.mapM_cons, hcompile, ih hlater]
    rfl

theorem mapM_mapError {α β ε ε' : Type} (read : α → Except ε β) (tell : ε → ε') (as : List α) :
    as.mapM (fun a => (read a).mapError tell) = (as.mapM read).mapError tell := by
  induction as with
  | nil => rfl
  | cons a as ih =>
    rw [List.mapM_cons, List.mapM_cons, ih]
    cases read a with
    | error e => rfl
    | ok b =>
      cases as.mapM read with
      | error e => rfl
      | ok bs => rfl

/-- Without an engine that refuses patterns, only the kinds count. -/
theorem build_none (width : Width) (queries : List (Placeholder × Bytes)) :
    build (fun _ => none) width queries = (ofQueries width queries).mapError .parts := by
  have hcompile : compile (fun _ => none) = fun query => (NumberPattern.make query).mapError .parts := by
    funext query
    obtain ⟨kind, text⟩ := query
    cases kind with
    | number kind => rfl
    | dictionary => rfl
  rw [build, ofQueries, hcompile, mapM_mapError]
  cases queries.mapM NumberPattern.make with
  | error cause => rfl
  | ok patterns => rfl

/-- **Nothing stops the reading of serialized parts**, whatever they are. -/
theorem buildSerialized_eq (refusal : Bytes → Option String) (width : Width) (placeholders patterns : Bytes)
    (ends : List UInt32) :
    buildSerialized refusal width placeholders patterns ends = some (do
      if placeholders.length ≠ ends.length then
        throw (.parts (.offsetCount placeholders.length ends.length))
      let texts ← (FlatBytes.ofParts patterns (ends.map UInt32.toNat)).mapError fun cause => .parts (.offsets cause)
      let kinds ← (placeholders.mapM placeholder).mapError .parts
      build refusal width (kinds.zip texts.toList)) := by
  rw [buildSerialized]
  by_cases hlength : placeholders.length = ends.length
  · rw [if_neg (not_not.mpr hlength), if_neg (not_not.mpr hlength)]
    cases hcheck : checkEnds (ends.map UInt32.toNat) patterns.length with
    | error cause =>
      rw [FlatBytes.ofParts_of_error hcheck]
      rfl
    | ok _ =>
      have hwithin : EndsWithin patterns.length 0 (ends.map UInt32.toNat) := checkEndsFrom_eq_ok_iff.mp hcheck
      rw [FlatBytes.ofParts_of_ok hcheck]
      simp only [cutFrom_eq hwithin (Nat.le_of_eq hlength), Option.bind_eq_bind, Option.bind_some]
      cases placeholders.mapM placeholder with
      | error cause => rfl
      | ok kinds => rfl
  · rw [if_pos hlength, if_pos hlength]
    rfl

/-- Without an engine that refuses patterns, this is the matcher for the parts. -/
theorem buildSerialized_none (width : Width) (placeholders patterns : Bytes) (ends : List UInt32) :
    buildSerialized (fun _ => none) width placeholders patterns ends =
      some ((ofSerialized width placeholders patterns (ends.map UInt32.toNat)).mapError .parts) := by
  rw [buildSerialized_eq, ofSerialized, List.length_map]
  by_cases hlength : placeholders.length = ends.length
  · rw [if_neg (not_not.mpr hlength), if_neg (not_not.mpr hlength)]
    cases FlatBytes.ofParts patterns (ends.map UInt32.toNat) with
    | error cause => rfl
    | ok texts =>
      cases placeholders.mapM placeholder with
      | error cause => rfl
      | ok kinds => exact congrArg some (build_none width (kinds.zip texts.toList))
  · rw [if_pos hlength, if_pos hlength]
    rfl

/-- The placeholder bytes of some kinds tell these kinds. -/
theorem mapM_placeholder (kinds : List Placeholder) :
    (kinds.map Placeholder.toByte).mapM placeholder = .ok kinds := by
  induction kinds with
  | nil => rfl
  | cons kind kinds ih =>
    have hkind : placeholder kind.toByte = .ok kind := by rw [placeholder, Placeholder.ofByte?_toByte]
    rw [List.map_cons, List.mapM_cons, hkind, ih]
    rfl

/-- **What is read of patterns that are stored back to back** is what was stored. -/
theorem buildSerialized_of_toList {stored : FlatBytes} {queries : List (Placeholder × Bytes)}
    (hstored : stored.toList = queries.map Prod.snd) (hfits : stored.bytes.length < 0x100000000) :
    buildSerialized refusal width (queries.map fun query => query.1.toByte) stored.bytes
        (stored.ends.map UInt32.ofNat) =
      some (build refusal width queries) := by
  have hsize : stored.ends.length = queries.length := by
    rw [← FlatBytes.size, ← FlatBytes.length_toList, hstored, List.length_map]
  have hlength : (queries.map fun query => query.1.toByte).length = (stored.ends.map UInt32.ofNat).length := by
    rw [List.length_map, List.length_map, hsize]
  have hparts : FlatBytes.ofParts stored.bytes ((stored.ends.map UInt32.ofNat).map UInt32.toNat) = .ok stored := by
    rw [FlatBytes.map_toNat_ends hfits]
    exact FlatBytes.ofParts_eq_ok_iff.mpr ⟨rfl, rfl⟩
  have hkinds : (queries.map fun query => query.1.toByte).mapM placeholder = .ok (queries.map Prod.fst) := by
    have hbytes := mapM_placeholder (queries.map Prod.fst)
    rwa [List.map_map] at hbytes
  have hqueries : (queries.map Prod.fst).zip stored.toList = queries := by
    rw [hstored]
    exact (List.zip_of_prod rfl rfl).symm
  rw [buildSerialized_eq, if_neg (not_not.mpr hlength), hparts, hkinds]
  exact congrArg (fun found => some (build refusal width found)) hqueries

end

end Matcher

/-! ## Both ways -/

namespace SubqueryParts

section
variable {s : SubqueryParts}

/-- The patterns for packed numbers are the ones that the matcher has, if the engine takes them. -/
theorem matcher_eq_ok {refusal : Bytes → Option String} (width : Width)
    (h : ∀ p ∈ s.numberPatterns, refusal p.2 = none) :
    s.matcher refusal width = .ok ⟨width, s.numberPatterns.map fun p => (p.1, Pattern.ofBytes p.2)⟩ := by
  rw [matcher, Matcher.build, packedQueries_eq, Matcher.mapM_compile h]
  rfl

section
variable (hfits : (s.numberPatterns.map Prod.snd).flatten.length < 0x100000000)
include hfits

/-- What is read of what is written is what the matcher for the descriptors is made of. -/
theorem buildSerialized_eq_matcher (refusal : Bytes → Option String) (width : Width) :
    Matcher.buildSerialized refusal width (s.numberPatterns.map fun p => (Placeholder.number p.1).toByte)
        (FlatBytes.ofList (s.numberPatterns.map Prod.snd)).bytes
        ((FlatBytes.ofList (s.numberPatterns.map Prod.snd)).ends.map UInt32.ofNat) =
      some (s.matcher refusal width) := by
  have hstored : (FlatBytes.ofList (s.numberPatterns.map Prod.snd)).toList = s.packedQueries.map Prod.snd := by
    rw [FlatBytes.toList_ofList, packedQueries_eq, List.map_map]
    rfl
  have hbytes : s.packedQueries.map (fun query => query.1.toByte) =
      s.numberPatterns.map fun p => (Placeholder.number p.1).toByte := by
    rw [packedQueries_eq, List.map_map]
    rfl
  have hread := @Matcher.buildSerialized_of_toList refusal width _ _ hstored hfits
  rwa [hbytes] at hread

/-- The same, where no pattern is refused. -/
theorem ofSerialized_eq_ok (width : Width) :
    Matcher.ofSerialized width (s.numberPatterns.map fun p => (Placeholder.number p.1).toByte)
        (FlatBytes.ofList (s.numberPatterns.map Prod.snd)).bytes
        (FlatBytes.ofList (s.numberPatterns.map Prod.snd)).ends =
      .ok ⟨width, s.numberPatterns.map fun p => (p.1, Pattern.ofBytes p.2)⟩ := by
  have hmade := @matcher_eq_ok s (fun _ => none) width fun _ _ => rfl
  have hread := buildSerialized_eq_matcher hfits (fun _ => none) width
  rw [Matcher.buildSerialized_none, FlatBytes.map_toNat_ends hfits, hmade] at hread
  exact mapError_eq_ok_iff.mp (Option.some.inj hread)

end

end

/-- **Both ways to a matcher for a subquery lead to the same one.**  Whatever patterns the engine refuses, the matcher
for the serialized parts and the one for the descriptors are the same, or the same error is reported.  If it takes the
patterns for packed numbers, both matchers have these, each with its kind, and give the same answer or error for every
message.  Nothing else of the subquery counts, and for one that comes from a query these are its own parts and its own
matcher. -/
theorem buildSerialized_serialize (refusal : Bytes → Option String) (width : Width) (s : SubqueryParts)
    (hfits : (s.numberPatterns.map Prod.snd).flatten.length < 0x100000000) :
    ∃ placeholders patterns, s.serialize = some (placeholders, patterns) ∧
      Matcher.buildSerialized refusal width placeholders patterns.bytes (patterns.ends.map UInt32.ofNat) =
        some (s.matcher refusal width) ∧
      ((∀ p ∈ s.numberPatterns, refusal p.2 = none) →
        ∃ loaded made,
          Matcher.buildSerialized refusal width placeholders patterns.bytes (patterns.ends.map UInt32.ofNat) =
            some (.ok loaded) ∧
          s.matcher refusal width = .ok made ∧
          loaded.patterns = made.patterns ∧
          made.patterns = s.numberPatterns.map (fun p => (p.1, Pattern.ofBytes p.2)) ∧
          (∀ logtype numbers, loaded.accepts logtype numbers = made.accepts logtype numbers) ∧
          Matcher.ofSerialized width placeholders patterns.bytes patterns.ends = .ok made ∧
          ∀ q, s = ofSubquery q → made = Matcher.ofSubquery width q) ∧
      (∀ t : SubqueryParts,
        t.descriptors.filter Descriptor.isNumberPattern = s.descriptors.filter Descriptor.isNumberPattern →
        t.serialize = s.serialize ∧ t.matcher refusal width = s.matcher refusal width) ∧
      ∀ q, s = ofSubquery q → q.serialize = (placeholders, patterns) := by
  have hserialize := s.serialize_eq
  rw [if_pos hfits] at hserialize
  have hread := buildSerialized_eq_matcher hfits refusal width
  refine ⟨_, _, hserialize, hread, ?taken, ?others, ?fromQuery⟩
  case taken =>
    intro htaken
    have hmade := matcher_eq_ok width htaken
    rw [hmade] at hread
    refine ⟨_, _, hread, hmade, rfl, rfl, fun _ _ => rfl, ofSerialized_eq_ok hfits width, ?_⟩
    rintro q rfl
    rw [Matcher.ofSubquery, numberPatterns_ofSubquery, List.map_map]
    rfl
  case others =>
    intro t ht
    have hpatterns := numberPatterns_eq_of_filter ht
    constructor
    · rw [serialize_eq, serialize_eq, hpatterns]
    · rw [matcher, matcher, packedQueries_eq, packedQueries_eq, hpatterns]
  case fromQuery =>
    rintro q rfl
    rw [Subquery.serialize, numberPatterns_ofSubquery, List.map_map, List.map_map]
    rfl

/-- A subquery with a value, a number, and a pattern for a dictionary variable between patterns for numbers, of which
one is empty and one stands twice. -/
def mixed : SubqueryParts :=
  ⟨[0x11, 0x2A], true,
    [.value [0x61], .pattern (.number .integer) [0x31, 0x2A], .pattern .dictionary [0x2A, 0x62], .number .dictionary 7,
      .pattern (.number .float) [], .pattern (.number .integer) [0x31, 0x2A]]⟩

/-- What is written of it, and the matcher that is made of this. -/
theorem buildSerialized_serialize_mixed :
    (mixed.numberPatterns.map Prod.snd).flatten.length < 0x100000000 ∧
    (∀ p ∈ mixed.numberPatterns, (fun _ => none : Bytes → Option String) p.2 = none) ∧
    ∃ patterns loaded, mixed.serialize = some ([0x11, 0x13, 0x11], patterns) ∧
      patterns.bytes = [0x31, 0x2A, 0x31, 0x2A] ∧ patterns.ends = [2, 2, 4] ∧
      Matcher.buildSerialized (fun _ => none) .eight [0x11, 0x13, 0x11] patterns.bytes [2, 2, 4] = some (.ok loaded) ∧
      loaded.patterns =
        [(.integer, [.literal 0x31, .star]), (.float, []), (.integer, [.literal 0x31, .star])] := by
  have hfits : (mixed.numberPatterns.map Prod.snd).flatten.length < 0x100000000 := by decide
  have htaken : ∀ p ∈ mixed.numberPatterns, (fun _ => none : Bytes → Option String) p.2 = none := fun _ _ => rfl
  obtain ⟨placeholders, patterns, hserialize, -, htakes, -, -⟩ :=
    buildSerialized_serialize (fun _ => none) .eight mixed hfits
  obtain ⟨loaded, made, hloaded, -, hsame, hpatterns, -, -, -⟩ := htakes htaken
  obtain ⟨rfl, hstored⟩ : placeholders = [0x11, 0x13, 0x11] ∧
      patterns = FlatBytes.ofList [[0x31, 0x2A], [], [0x31, 0x2A]] := by
    have hwritten : mixed.serialize =
        some ([0x11, 0x13, 0x11], FlatBytes.ofList [[0x31, 0x2A], [], [0x31, 0x2A]]) := by decide +kernel
    exact Prod.mk.inj (Option.some.inj (hserialize.symm.trans hwritten))
  have hends : patterns.ends = [2, 2, 4] := by
    rw [hstored]
    decide
  have hbytes : patterns.bytes = [0x31, 0x2A, 0x31, 0x2A] := by
    rw [hstored]
    decide
  rw [hends] at hloaded
  refine ⟨hfits, htaken, patterns, loaded, hserialize, hbytes, hends, hloaded, hsame.trans (hpatterns.trans ?_)⟩
  decide +kernel

end SubqueryParts

end LogCodec
