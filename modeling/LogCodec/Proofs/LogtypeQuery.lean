import LogCodec.Proofs.NormalForm
import LogCodec.Proofs.Subqueries
import LogCodec.Query.LogtypeWriter

/-!
# `LogCodec.Proofs.LogtypeQuery`: the pattern for a logtype agrees with the conditions

The pattern for the logtype of a subquery is spelled from its items, and so are the conditions on variables.  Each item
has symbols of its own, and none of them depends on its neighbours: a byte of static text that is reserved takes its
escape with it, so an escape never meets the place of a variable.  Only stars have to know of each other.

## Contents
- **Symbols.** `Pattern.placeholders?` reads the places of variables from a pattern; `placeholders?_items`.
- **Stars.** `flatMap_symbols_collapse`: to replace runs of stars before or after they are spelled is the same.
- **Writing.** `LogtypeWriter.Shows`, which every item keeps: `Shows.item` and `Shows.items`.
- **Queries.** `logtypeQuery_of_decompose`, the result.
-/

namespace LogCodec

open Bytes

/-! ## Symbols -/

/-- The placeholder bytes among the literals of a pattern that no escape byte comes before, as the kinds of variable
that they stand for, given whether the pattern starts behind an escape byte.  An escape byte takes the literal behind it
along; there is no answer if no literal is there. -/
def Pattern.placeholdersFrom (escaped : Bool) : Pattern → Option (List Placeholder)
  | [] => if escaped then none else some []
  | .literal b :: rest =>
    if escaped then placeholdersFrom false rest
    else if b = escapeByte then placeholdersFrom true rest
    else (placeholdersFrom false rest).map ((Placeholder.ofByte? b).toList ++ ·)
  | _ :: rest => if escaped then none else placeholdersFrom false rest

/-- The placeholder bytes among the literals of a pattern that no escape byte comes before. -/
def Pattern.placeholders? (p : Pattern) : Option (List Placeholder) := placeholdersFrom false p

namespace Pattern

variable (b : UInt8) (rest : Pattern)

theorem placeholders?_star : placeholders? (.star :: rest) = placeholders? rest := by
  unfold placeholders?
  simp [placeholdersFrom]

theorem placeholders?_any : placeholders? (.any :: rest) = placeholders? rest := by
  unfold placeholders?
  simp [placeholdersFrom]

theorem placeholders?_escape : placeholders? (.literal escapeByte :: .literal b :: rest) = placeholders? rest := by
  unfold placeholders?
  simp [placeholdersFrom]

theorem placeholders?_literal {b : UInt8} (hb : b ≠ escapeByte) :
    placeholders? (.literal b :: rest) = (placeholders? rest).map ((Placeholder.ofByte? b).toList ++ ·) := by
  unfold placeholders?
  simp [placeholdersFrom, hb]

end Pattern

namespace Item

variable {item : Item} {items : List Item}

/-- The symbols of an item that is no star are no stars. -/
theorem star_mem_symbols_iff : .star ∈ item.symbols ↔ item = .star := by
  cases item <;> simp [symbols]

theorem any_mem_symbols_iff : .any ∈ item.symbols ↔ item = .any := by
  cases item <;> simp [symbols]

/-- Some symbol of an item is a wildcard if the item is one. -/
theorem isWildcard_iff : item.isWildcard = true ↔ .star ∈ item.symbols ∨ .any ∈ item.symbols := by
  rw [star_mem_symbols_iff, any_mem_symbols_iff]
  cases item <;> simp [isWildcard]

/-- An item has the place of a variable if it puts a condition on one, and what follows it is read as if it stood
alone. -/
theorem placeholders?_symbols (item : Item) (rest : Pattern) :
    Pattern.placeholders? (item.symbols ++ rest) =
      (Pattern.placeholders? rest).map ((item.condition?.map VariableQuery.placeholder).toList ++ ·) := by
  have hnone : (Pattern.placeholders? rest).map ([] ++ ·) = Pattern.placeholders? rest := by simp
  cases item with
  | star => exact (Pattern.placeholders?_star rest).trans hnone.symm
  | any => exact (Pattern.placeholders?_any rest).trans hnone.symm
  | literal b =>
    refine Eq.trans ?_ hnone.symm
    by_cases hb : needsEscape b = true
    · simp [symbols, Logtype.writeByte, hb, Pattern.placeholders?_escape]
    · rw [Bool.not_eq_true] at hb
      obtain ⟨hplain, hne⟩ := Logtype.ofByte?_of_not_needsEscape hb
      simp [symbols, Logtype.writeByte, hb, Pattern.placeholders?_literal rest hne, hplain]
  | «variable» query =>
    have hne : query.placeholder.toByte ≠ escapeByte := by
      cases query.placeholder with
      | number kind => cases kind <;> decide
      | dictionary => decide
    simp [symbols, condition?, Pattern.placeholders?_literal rest hne]

/-- **The places in the pattern for a logtype are those of the conditions**, in order. -/
theorem placeholders?_items (items : List Item) :
    Pattern.placeholders? (items.flatMap symbols) =
      some ((items.filterMap condition?).map VariableQuery.placeholder) := by
  induction items with
  | nil => rfl
  | cons item items ih =>
    rw [List.flatMap_cons, placeholders?_symbols, ih, List.filterMap_cons]
    cases item.condition? <;> rfl

/-! ## Stars -/

theorem symbols_ne_nil (item : Item) : item.symbols ≠ [] := by
  cases item with
  | star => simp [symbols]
  | any => simp [symbols]
  | literal b =>
    have hlength := Logtype.length_writeByte_pos b
    simpa [symbols] using List.ne_nil_of_length_pos hlength
  | «variable» query => simp [symbols]

/-- The first symbol of some items is a star if the first item is one. -/
theorem head?_flatMap_symbols (items : List Item) :
    (items.flatMap symbols).head? = some .star ↔ items.head? = some .star := by
  cases items with
  | nil => simp
  | cons item items =>
    rw [List.flatMap_cons, List.head?_append_of_ne_nil _ item.symbols_ne_nil, List.head?_cons, Option.some.injEq]
    constructor
    · intro h
      exact star_mem_symbols_iff.mp (List.mem_of_mem_head? h)
    · rintro rfl
      rfl

theorem collapse_append_of_starFree {front : Pattern} (h : front.StarFree) (p : Pattern) :
    Pattern.collapse (front ++ p) = front ++ Pattern.collapse p := by
  induction front with
  | nil => rfl
  | cons s front ih =>
    obtain ⟨hs, hfront⟩ := not_or.mp (List.mem_cons.not.mp h)
    rw [List.cons_append, Pattern.collapse_cons_of_apart fun hstar => absurd hstar.symm hs, ih hfront]
    rfl

theorem collapse_star_star (items : List Item) : collapse (.star :: .star :: items) = collapse (.star :: items) := by
  rw [collapse]

theorem collapse_cons_of_apart {item : Item} {items : List Item} (h : item = .star → items.head? ≠ some .star) :
    collapse (item :: items) = item :: collapse items := by
  rw [collapse]
  rintro rest hstar rfl
  exact h hstar rfl

/-- **Runs of stars are replaced among the items as they are among the symbols.** -/
theorem flatMap_symbols_collapse (items : List Item) :
    (collapse items).flatMap symbols = Pattern.collapse (items.flatMap symbols) := by
  fun_induction collapse items with
  | case1 items ih =>
    rw [ih]
    exact (Pattern.collapse_star_star _).symm
  | case2 item items hapart ih =>
    rw [List.flatMap_cons, List.flatMap_cons, ih]
    by_cases hitem : item = .star
    · have hhead : (items.flatMap symbols).head? ≠ some .star := by
        rw [Ne, head?_flatMap_symbols]
        intro hhead
        obtain ⟨rest, rfl⟩ := List.head?_eq_some_iff.mp hhead
        exact hapart rest hitem rfl
      rw [hitem]
      exact (Pattern.collapse_cons_of_apart fun _ => hhead).symm
    · exact (collapse_append_of_starFree (fun hmem => hitem (star_mem_symbols_iff.mp hmem)) _).symm
  | case3 => rfl

/-- To replace runs of stars adds no wildcard and takes none away. -/
theorem any_isWildcard_collapse (items : List Item) : (collapse items).any isWildcard = items.any isWildcard := by
  fun_induction collapse items with
  | case1 items ih =>
    rw [ih]
    simp [isWildcard]
  | case2 item items _ ih => rw [List.any_cons, List.any_cons, ih]
  | case3 => rfl

/-- A last item is kept, unless it is a star behind a star. -/
theorem collapse_concat (items : List Item) (item : Item) :
    collapse (items ++ [item]) =
      if items.getLast? = some .star ∧ item = .star then collapse items else collapse items ++ [item] := by
  fun_induction collapse items with
  | case1 items ih =>
    rw [List.cons_append, List.cons_append, collapse_star_star, ← List.cons_append, ih, List.getLast?_cons_cons]
  | case2 first items hapart ih =>
    cases items with
    | nil =>
      by_cases hboth : first = .star ∧ item = .star
      · obtain ⟨rfl, rfl⟩ := hboth
        rfl
      · have hne : ¬ ([first].getLast? = some .star ∧ item = .star) := by simpa using hboth
        rw [if_neg hne, List.singleton_append, collapse_cons_of_apart]
        · simp [collapse]
        · rintro rfl hstar
          exact hboth ⟨rfl, by simpa using hstar⟩
    | cons second items =>
      have hhead : first = .star → (second :: items ++ [item]).head? ≠ some .star := by
        rintro rfl hstar
        rw [List.cons_append, List.head?_cons, Option.some.injEq] at hstar
        exact hapart items rfl (by rw [hstar])
      rw [List.cons_append, collapse_cons_of_apart hhead, ih, List.getLast?_cons_cons]
      split <;> rfl
  | case3 => simp [collapse]

end Item

/-! ## Writing -/

namespace LogtypeWriter

/-- Writes an item. -/
def item (w : LogtypeWriter) : Item → LogtypeWriter
  | .star => w.star
  | .any => w.any
  | .literal b => w.literal b
  | .variable query => w.place query.placeholder

/-- What is written is the pattern for some items, with one star for every run of stars. -/
structure Shows (w : LogtypeWriter) (items : List Item) : Prop where
  bytes_eq : w.bytes = (Subquery.mk (Item.collapse items)).logtypeQuery
  hasWildcards_eq : w.hasWildcards = (Subquery.mk (Item.collapse items)).hasWildcards
  afterStar_iff : w.afterStar = true ↔ items.getLast? = some .star

theorem shows_empty : empty.Shows [] := ⟨rfl, rfl, by simp [empty]⟩

theorem Shows.eq {w : LogtypeWriter} {items : List Item} (h : w.Shows items) :
    w = ⟨(Subquery.mk (Item.collapse items)).logtypeQuery, (Subquery.mk (Item.collapse items)).hasWildcards,
      w.afterStar⟩ := by
  rw [← h.bytes_eq, ← h.hasWildcards_eq]

/-- Both escapes of a byte of static text are written at once. -/
theorem spelled_eq (b : UInt8) : spelled b = Pattern.spell (Item.literal b).symbols := by
  unfold spelled
  by_cases hwildcard : b = starByte ∨ b = anyByte
  · rcases hwildcard with rfl | rfl <;> decide
  · by_cases hescape : b = escapeByte
    · rw [hescape]
      decide
    · have hplain : Symbol.isReserved b = false := by
        simpa [Symbol.isReserved, hescape] using hwildcard
      have hpair : Symbol.isReserved escapeByte = true := by decide
      rw [if_neg hwildcard, if_neg hescape]
      by_cases hplace : isPlaceholder b = true
      · simp [Item.symbols, Logtype.writeByte, needsEscape, hplace, Symbol.spell, hplain, hpair]
      · simp [Item.symbols, Logtype.writeByte, needsEscape, hplace, hescape, Symbol.spell, hplain]

/-- The place of a variable takes no escape. -/
theorem spell_place (query : VariableQuery Excerpt) :
    Pattern.spell (Item.variable query).symbols = [query.placeholder.toByte] := by
  have hplain : ∀ p : Placeholder, Pattern.spell [.literal p.toByte] = [p.toByte] := by
    intro p
    rcases p with (_ | _) | _ <;> decide
  exact hplain query.placeholder

/-- The pattern for a logtype with one more item. -/
theorem logtypeQuery_concat (items : List Item) (item : Item) :
    (Subquery.mk (items ++ [item])).logtypeQuery =
      (Subquery.mk items).logtypeQuery ++ Pattern.spell item.symbols := by
  simp [Subquery.logtypeQuery, Subquery.logtypePattern, Pattern.spell]

variable {w : LogtypeWriter} {items : List Item}

/-- An item that is no star is written behind whatever there is. -/
theorem Shows.concat (h : w.Shows items) {item : Item} (hitem : item ≠ .star) {w' : LogtypeWriter}
    (hbytes : w'.bytes = w.bytes ++ Pattern.spell item.symbols)
    (hwildcards : w'.hasWildcards = (w.hasWildcards || item.isWildcard)) (hafter : w'.afterStar = false) :
    w'.Shows (items ++ [item]) where
  bytes_eq := by
    rw [Item.collapse_concat, if_neg fun hboth => hitem hboth.2, logtypeQuery_concat, ← h.bytes_eq, hbytes]
  hasWildcards_eq := by
    rw [Subquery.hasWildcards, Item.any_isWildcard_collapse, List.any_append, hwildcards, h.hasWildcards_eq,
      Subquery.hasWildcards, Item.any_isWildcard_collapse]
    simp
  afterStar_iff := by
    rw [hafter, List.getLast?_concat, Option.some.injEq]
    simp [hitem]

/-- A star is written unless there is one. -/
theorem Shows.star (h : w.Shows items) : w.star.Shows (items ++ [.star]) where
  bytes_eq := by
    rw [Item.collapse_concat]
    by_cases hlast : w.afterStar = true
    · rw [if_pos ⟨h.afterStar_iff.mp hlast, rfl⟩, ← h.bytes_eq]
      simp [LogtypeWriter.star, hlast]
    · rw [if_neg fun hboth => hlast (h.afterStar_iff.mpr hboth.1), logtypeQuery_concat, ← h.bytes_eq]
      simp [LogtypeWriter.star, hlast, Item.symbols, Symbol.spell]
  hasWildcards_eq := by
    rw [Subquery.hasWildcards, Item.any_isWildcard_collapse]
    simp [LogtypeWriter.star, Item.isWildcard]
  afterStar_iff := by simp [LogtypeWriter.star]

/-- **What is written of an item is what its place among the items asks for.** -/
theorem Shows.item (h : w.Shows items) (item : Item) : (w.item item).Shows (items ++ [item]) := by
  cases item with
  | star => exact h.star
  | any => exact h.concat (by simp) rfl (Bool.or_true _).symm rfl
  | literal b => exact h.concat (by simp) (congrArg (w.bytes ++ ·) (spelled_eq b)) (Bool.or_false _).symm rfl
  | «variable» query =>
    exact h.concat (by simp) (congrArg (w.bytes ++ ·) (spell_place query).symm) (Bool.or_false _).symm rfl

/-- What is written of many items. -/
theorem Shows.foldl (h : w.Shows items) (more : List Item) : (more.foldl LogtypeWriter.item w).Shows (items ++ more) := by
  induction more generalizing w items with
  | nil => rwa [List.append_nil]
  | cons item more ih =>
    rw [List.append_cons]
    exact ih (h.item item)

/-- What is written of a part of a query that is static text. -/
theorem Shows.text (h : w.Shows items) (query : Bytes) :
    (w.text query).Shows (items ++ (Pattern.ofBytes query).map Item.ofSymbol) := by
  have hsymbol : ∀ w : LogtypeWriter, ∀ s, w.symbol s = w.item (Item.ofSymbol s) := by
    intro w s
    cases s <;> rfl
  have htext : w.text query = ((Pattern.ofBytes query).map Item.ofSymbol).foldl LogtypeWriter.item w := by
    rw [LogtypeWriter.text, List.foldl_map]
    exact congrArg (fun f => (Pattern.ofBytes query).foldl f w) (funext fun w => funext (hsymbol w))
  rw [htext]
  exact h.foldl _

end LogtypeWriter

/-! ## Queries -/

namespace Subquery

variable {s : Subquery}

/-- The pattern for a logtype has a wildcard if an item is one. -/
theorem hasWildcards_iff :
    s.hasWildcards = true ↔ .star ∈ s.logtypePattern ∨ .any ∈ s.logtypePattern := by
  unfold hasWildcards logtypePattern
  simp only [List.any_eq_true, List.mem_flatMap, Item.isWildcard_iff, and_or_left, exists_or]

/-- Where runs of stars have been replaced, no two stars stand together in the pattern for a logtype. -/
theorem starsApart_logtypePattern (items : List Item) : (mk (Item.collapse items)).logtypePattern.StarsApart := by
  rw [logtypePattern, Item.flatMap_symbols_collapse]
  exact Pattern.starsApart_collapse _

/-- Where runs of stars have been replaced, the pattern for a logtype is a normal form. -/
theorem ofQuery_logtypeQuery (items : List Item) :
    Pattern.ofQuery (mk (Item.collapse items)).logtypeQuery = (mk (Item.collapse items)).logtypePattern :=
  Pattern.ofQuery_spell_of_apart (starsApart_logtypePattern items)

end Subquery

namespace Query

/-- The items for one reading of each part, before runs of stars are replaced. -/
def Decomposition.itemsOf (d : Decomposition) (readings : List Reading) : List Item :=
  (d.parts.zip readings).flatMap fun (part, reading) => reading.flatMap (part.items d.width)

/-- **The pattern for the logtype of a subquery agrees with its conditions.**  It is what is written from left to right
of the items of a choice of readings, with each star written only if none has just been written.  It is its own normal
form: no two stars stand together, its escapes stand before bytes that need them, and it does not end in an escape that
escapes nothing.  The subquery says that it has wildcards if and only if it does.  Every literal escape byte in it has a
literal behind it, and the placeholder bytes that are not escaped in this way are those of the conditions, in order. -/
theorem logtypeQuery_of_decompose {schema : Schema} {width : Width} {limit : Nat} {query : Bytes} :
    ∀ d, decompose schema width limit query = .ok d → ∀ s ∈ d.subqueries,
      (∃ readings ∈ combinations d.choices, s = d.subqueryOf readings ∧
        ∃ afterStar, (d.itemsOf readings).foldl LogtypeWriter.item .empty =
          ⟨s.logtypeQuery, s.hasWildcards, afterStar⟩) ∧
      Wildcard.normalize s.logtypeQuery = s.logtypeQuery ∧
      (∀ front back, s.logtypeQuery = front ++ starByte :: starByte :: back → EndsInEscape front) ∧
      EscapesOnly Symbol.isReserved s.logtypeQuery ∧
      ¬ EndsInEscape s.logtypeQuery ∧
      (s.hasWildcards = true ↔
        .star ∈ Pattern.ofBytes s.logtypeQuery ∨ .any ∈ Pattern.ofBytes s.logtypeQuery) ∧
      Pattern.placeholders? (Pattern.ofBytes s.logtypeQuery) =
        some (s.variableQueries.map VariableQuery.placeholder) := by
  intro d _ s hs
  obtain ⟨readings, hreadings, rfl⟩ := List.mem_map.mp hs
  have hpattern : Pattern.ofQuery (d.subqueryOf readings).logtypeQuery = (d.subqueryOf readings).logtypePattern :=
    Subquery.ofQuery_logtypeQuery (d.itemsOf readings)
  have hnormal : Wildcard.normalize (d.subqueryOf readings).logtypeQuery = (d.subqueryOf readings).logtypeQuery := by
    rw [Wildcard.normalize, hpattern]
    rfl
  have hunits : Pattern.ofBytes (d.subqueryOf readings).logtypeQuery = (d.subqueryOf readings).logtypePattern :=
    Pattern.ofBytes_spell _
  refine ⟨⟨readings, hreadings, rfl, ?written⟩, hnormal, ?stars, Pattern.escapesOnly_spell _,
    Pattern.not_endsInEscape_spell _, ?wildcards, ?places⟩
  case written =>
    have hshows := LogtypeWriter.shows_empty.foldl (d.itemsOf readings)
    rw [List.nil_append] at hshows
    exact ⟨_, hshows.eq⟩
  case stars =>
    intro front back h
    exact (Subquery.starsApart_logtypePattern (d.itemsOf readings)).endsInEscape h
  case wildcards => rw [hunits, Subquery.hasWildcards_iff]
  case places => rw [hunits, Subquery.logtypePattern, Item.placeholders?_items, Subquery.variableQueries]

/-- The query `a*1` has subqueries in which both sides of the star are variables. -/
theorem logtypeQuery_of_decompose_a_star_1 :
    ∃ d, decompose .standard .eight 7 [0x61, 0x2A, 0x31] = .ok d ∧ ∃ s ∈ d.subqueries,
      Wildcard.normalize s.logtypeQuery = s.logtypeQuery ∧
      Pattern.placeholders? (Pattern.ofBytes s.logtypeQuery) =
        some (s.variableQueries.map VariableQuery.placeholder) := by
  have hok : (match decompose .standard .eight 7 [0x61, 0x2A, 0x31] with
      | .ok d => d.subqueries.head?.isSome
      | .error _ => false) = true := by decide +kernel
  cases hd : decompose .standard .eight 7 [0x61, 0x2A, 0x31] with
  | error failure =>
    rw [hd] at hok
    cases hok
  | ok d =>
    rw [hd] at hok
    obtain ⟨s, hs⟩ := Option.isSome_iff_exists.mp hok
    have hmem : s ∈ d.subqueries := List.mem_of_mem_head? hs
    obtain ⟨-, hnormal, -, -, -, -, hplaces⟩ := logtypeQuery_of_decompose d hd s hmem
    exact ⟨d, rfl, s, hmem, hnormal, hplaces⟩

end Query

end LogCodec
