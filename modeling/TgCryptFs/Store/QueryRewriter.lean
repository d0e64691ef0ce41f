import Mathlib.Data.Finset.Card
import Mathlib.Data.Finset.Range
import TgCryptFs.Library.Renaming
import TgCryptFs.Store.OpaqueSchema

set_option autoImplicit false

/-!
# The SQL rewriter

It replaces the logical names in the text of a statement one after the other. That renames the
identifiers of the statement exactly as long as a name is found nowhere else.
-/
namespace TgCryptFs
open Library

namespace QueryRewriter

/-- `text.replace(pat, sub)`. -/
def strReplace (text pat sub : String) : String :=
  String.ofList (replaceEvery pat.toList sub.toList text.toList)

def rewriteSql (schema : OpaqueSchema) (logicalSql table : String) : Option String :=
  match schema.table table with
  | some opaqueTable => some (strReplace logicalSql table opaqueTable)
  | none => none

/-- The loop of `rewrite_full`. -/
def replaceColumns (schema : OpaqueSchema) (table : String) (columns : List String) (result : String) : String :=
  columns.foldl (fun result col =>
    match schema.column table col with
    | some opaqueCol => strReplace result col opaqueCol
    | none => result) result

def rewriteFull (schema : OpaqueSchema) (logicalSql table : String) (columns : List String) : Option String :=
  let result := replaceColumns schema table columns logicalSql
  match schema.table table with
  | some opaqueTable => some (strReplace result table opaqueTable)
  | none => none

/-! ## What it is for -/

/-- A letter of an SQL identifier. -/
def isIdentChar (c : Char) : Bool := c.isAlphanum || c == '_' || c == '$' || 128 ≤ c.toNat

/-- The identifier that stands for a token. A column comes before the table. -/
def opaqueToken (schema : OpaqueSchema) (table opaqueTable : String) (columns : List String)
    (token : String) : String :=
  (if token ∈ columns then schema.column table token else none).getD
    (if token = table then opaqueTable else token)

/-- The statement with its tokens renamed. -/
def rewriteTokens (schema : OpaqueSchema) (logicalSql table : String) (columns : List String) : Option String :=
  (schema.table table).map fun opaqueTable =>
    String.ofList (mapRegions isIdentChar (fun w =>
      if w = [] then [] else (opaqueToken schema table opaqueTable columns (String.ofList w)).toList)
      logicalSql.toList)

/-! ## The replacements of a call -/

def columnSteps (schema : OpaqueSchema) (table : String) (columns : List String) : Steps Char :=
  columns.filterMap fun col =>
    (schema.column table col).map fun opaqueCol => (col.toList, opaqueCol.toList)

def identifierSteps (schema : OpaqueSchema) (table opaqueTable : String) (columns : List String) : Steps Char :=
  columnSteps schema table columns ++ [(table.toList, opaqueTable.toList)]

/-- Each name is found only as a whole token of the statement, when the tokens of the names before
it have been renamed. -/
def Separate (schema : OpaqueSchema) (logicalSql table : String) (columns : List String) : Prop :=
  ∀ opaqueTable, schema.table table = some opaqueTable →
    Clear isIdentChar (identifierSteps schema table opaqueTable columns) logicalSql.toList

variable {schema : OpaqueSchema} {logicalSql table opaqueTable : String} {columns : List String}

theorem toList_replaceColumns (schema : OpaqueSchema) (table : String) (columns : List String) (result : String) :
    (replaceColumns schema table columns result).toList =
      replaceSteps (columnSteps schema table columns) result.toList := by
  induction columns generalizing result with
  | nil => rfl
  | cons col columns ih =>
    rw [replaceColumns, List.foldl_cons, columnSteps, List.filterMap_cons]
    cases schema.column table col with
    | none => exact ih result
    | some opaqueCol =>
      refine (ih (strReplace result col opaqueCol)).trans ?_
      rw [strReplace, String.toList_ofList]
      rfl

theorem rewriteFull_eq (h : schema.table table = some opaqueTable) :
    rewriteFull schema logicalSql table columns = some (String.ofList
      (replaceSteps (identifierSteps schema table opaqueTable columns) logicalSql.toList)) := by
  rw [rewriteFull, h]
  dsimp only
  rw [strReplace, toList_replaceColumns, identifierSteps, replaceSteps, replaceSteps, List.foldl_append]
  rfl

theorem rewriteFull_none (h : schema.table table = none) :
    rewriteFull schema logicalSql table columns = none := by
  rw [rewriteFull, h]

theorem rewriteSql_eq (schema : OpaqueSchema) (logicalSql table : String) :
    rewriteSql schema logicalSql table = rewriteFull schema logicalSql table [] := rfl

theorem lookup_columnSteps (schema : OpaqueSchema) (table : String) (columns : List String) (w : List Char) :
    (columnSteps schema table columns).lookup w =
      if String.ofList w ∈ columns then (schema.column table (String.ofList w)).map String.toList
      else none := by
  induction columns with
  | nil => rfl
  | cons col columns ih =>
    rw [columnSteps, List.filterMap_cons]
    by_cases hcol : String.ofList w = col
    · subst hcol
      rw [if_pos List.mem_cons_self]
      cases hcolumn : schema.column table (String.ofList w) with
      | none =>
        refine ih.trans ?_
        rw [hcolumn, Option.map_none, ite_self]
      | some opaqueCol =>
        rw [Option.map_some, String.toList_ofList]
        exact List.lookup_cons_self
    · have hne : w ≠ col.toList := by
        rintro rfl
        exact hcol String.ofList_toList
      have hmem : String.ofList w ∈ col :: columns ↔ String.ofList w ∈ columns := by
        rw [List.mem_cons, or_iff_right hcol]
      simp only [hmem]
      refine Eq.trans ?_ ih
      cases schema.column table col with
      | none => rfl
      | some opaqueCol =>
        rw [Option.map_some, List.lookup_cons, beq_false_of_ne hne]
        rfl

theorem renameToken_identifierSteps {w : List Char} (hw : w ≠ []) :
    renameToken (identifierSteps schema table opaqueTable columns) w =
      (opaqueToken schema table opaqueTable columns (String.ofList w)).toList := by
  have htable : List.lookup w [(table.toList, opaqueTable.toList)] =
      if String.ofList w = table then some opaqueTable.toList else none := by
    rw [List.lookup_cons]
    by_cases h : String.ofList w = table
    · subst h
      rw [if_pos rfl, String.toList_ofList, beq_self_eq_true]
    · have hne : w ≠ table.toList := by
        rintro rfl
        exact h String.ofList_toList
      rw [if_neg h, beq_false_of_ne hne]
      rfl
  have hcolumn : (columnSteps schema table columns).lookup w =
      (if String.ofList w ∈ columns then schema.column table (String.ofList w) else none).map String.toList := by
    rw [lookup_columnSteps]
    split_ifs <;> rfl
  rw [renameToken, if_neg hw, identifierSteps, List.lookup_append, hcolumn, htable, opaqueToken]
  cases (if String.ofList w ∈ columns then schema.column table (String.ofList w) else none) with
  | some opaqueCol => rfl
  | none =>
    rw [Option.map_none, Option.none_or, Option.getD_none]
    split_ifs
    · rfl
    · exact String.toList_ofList.symm

theorem rewriteTokens_eq (h : schema.table table = some opaqueTable) :
    rewriteTokens schema logicalSql table columns = some (String.ofList
      (renameTokens isIdentChar (identifierSteps schema table opaqueTable columns) logicalSql.toList)) := by
  rw [rewriteTokens, h, Option.map_some, renameTokens]
  refine congrArg (fun t => some (String.ofList t)) (mapRegions_congr fun w _ => ?_)
  split_ifs with hw
  · rw [hw, renameToken, if_pos rfl]
  · exact (renameToken_identifierSteps hw).symm

/-- The result is right exactly if the replacements rename the tokens. -/
theorem rewriteFull_eq_iff (h : schema.table table = some opaqueTable) :
    rewriteFull schema logicalSql table columns = rewriteTokens schema logicalSql table columns ↔
      replaceSteps (identifierSteps schema table opaqueTable columns) logicalSql.toList =
        renameTokens isIdentChar (identifierSteps schema table opaqueTable columns) logicalSql.toList := by
  rw [rewriteFull_eq h, rewriteTokens_eq h, Option.some_inj]
  exact ⟨fun heq => String.ofList_injective heq, congrArg String.ofList⟩

/-- What the statement is to become does not depend on the order of the columns. -/
theorem rewriteTokens_congr {columns' : List String} (h : ∀ col, col ∈ columns ↔ col ∈ columns') :
    rewriteTokens schema logicalSql table columns = rewriteTokens schema logicalSql table columns' := by
  have htoken : ∀ opaqueTable token, opaqueToken schema table opaqueTable columns token =
      opaqueToken schema table opaqueTable columns' token := by
    intro opaqueTable token
    rw [opaqueToken, opaqueToken]
    simp only [h]
  rw [rewriteTokens, rewriteTokens]
  simp only [htoken]

/-! ## Opaque names -/

theorem isWord_hexEncode (b : Bytes) : IsWord isIdentChar (hexEncode b).toList := by
  have hdigits : "0123456789abcdef".toList.all isIdentChar = true := by decide
  have hdigit : ∀ n : UInt8, isIdentChar (hexDigit n) = true := by
    intro n
    rw [hexDigit, List.getD_eq_getElem?_getD]
    cases hget : "0123456789abcdef".toList[n.toNat]? with
    | none => decide
    | some c => exact List.all_eq_true.1 hdigits c (List.mem_of_getElem? hget)
  intro c hc
  rw [hexEncode, String.toList_ofList] at hc
  obtain ⟨x, -, hc⟩ := List.mem_flatMap.1 hc
  rcases List.mem_pair.1 hc with rfl | rfl
  · exact hdigit _
  · exact hdigit _

theorem length_hexEncode (b : Bytes) : (hexEncode b).toList.length = 2 * b.length := by
  rw [hexEncode, String.toList_ofList]
  induction b with
  | nil => rfl
  | cons x b ih =>
    rw [List.flatMap_cons, List.length_append, ih]
    simp only [List.length_cons, List.length_nil]
    omega

theorem isWord_of_isOpaque {kind x : String} (h : OpaqueSchema.IsOpaque kind x) (hkind : IsWord isIdentChar kind.toList) :
    IsWord isIdentChar x.toList := by
  obtain ⟨b, -, rfl⟩ := h
  rw [String.toList_append]
  intro c hc
  rcases List.mem_append.1 hc with hc | hc
  · exact hkind c hc
  · exact isWord_hexEncode b c hc

theorem length_of_isOpaque {kind x : String} (h : OpaqueSchema.IsOpaque kind x) (hkind : kind.toList.length = 2) :
    x.toList.length = 18 := by
  obtain ⟨b, hb, rfl⟩ := h
  rw [String.toList_append, List.length_append, length_hexEncode, hb, hkind]

theorem mem_identifierSteps {step : List Char × List Char}
    (h : step ∈ identifierSteps schema table opaqueTable columns) :
    (∃ col x, schema.column table col = some x ∧ step.2 = x.toList) ∨ step.2 = opaqueTable.toList := by
  rcases List.mem_append.1 h with h | h
  · obtain ⟨col, -, hstep⟩ := List.mem_filterMap.1 h
    obtain ⟨x, hx, rfl⟩ := Option.map_eq_some_iff.1 hstep
    exact .inl ⟨col, x, hx, rfl⟩
  · rw [List.mem_singleton.1 h]
    exact .inr rfl

theorem isOpaque_identifierSteps (hshaped : schema.Shaped) (htable : schema.table table = some opaqueTable)
    {step : List Char × List Char} (h : step ∈ identifierSteps schema table opaqueTable columns) :
    ∃ kind x, (kind = "c_" ∨ kind = "t_") ∧ OpaqueSchema.IsOpaque kind x ∧ step.2 = x.toList := by
  rcases mem_identifierSteps h with ⟨col, x, hx, hstep⟩ | hstep
  · exact ⟨"c_", x, .inl rfl, hshaped.columns table col x hx, hstep⟩
  · exact ⟨"t_", opaqueTable, .inr rfl, hshaped.tables table opaqueTable htable, hstep⟩

theorem isWord_identifierSteps (hshaped : schema.Shaped) (htable : schema.table table = some opaqueTable) :
    ∀ step ∈ identifierSteps schema table opaqueTable columns, IsWord isIdentChar step.2 := by
  intro step hstep
  obtain ⟨kind, x, hkind, hopaque, heq⟩ := isOpaque_identifierSteps hshaped htable hstep
  rw [heq]
  refine isWord_of_isOpaque hopaque ?_
  rcases hkind with rfl | rfl <;> decide

theorem nodup_identifierSteps (hshaped : schema.Shaped) (htable : schema.table table = some opaqueTable)
    (hnodup : columns.Nodup)
    (hdiffer : ∀ c c' x, schema.column table c = some x → schema.column table c' = some x → c = c') :
    ((identifierSteps schema table opaqueTable columns).map Prod.snd).Nodup := by
  have hcolumns : (columnSteps schema table columns).map Prod.snd =
      columns.filterMap fun col => (schema.column table col).map String.toList := by
    rw [columnSteps, List.map_filterMap]
    simp only [Option.map_map]
    rfl
  rw [identifierSteps, List.map_append, hcolumns]
  refine List.nodup_append.2 ⟨?_, List.nodup_singleton _, ?_⟩
  · refine List.Nodup.filterMap (fun c c' sub hc hc' => ?_) hnodup
    obtain ⟨x, hx, rfl⟩ := Option.map_eq_some_iff.1 hc
    obtain ⟨y, hy, heq⟩ := Option.map_eq_some_iff.1 hc'
    exact hdiffer c c' x hx (String.toList_injective heq ▸ hy)
  · rintro sub hsub _ hotherMem rfl
    obtain ⟨c, -, hc⟩ := List.mem_filterMap.1 hsub
    obtain ⟨x, hx, rfl⟩ := Option.map_eq_some_iff.1 hc
    have hsame : x.toList = opaqueTable.toList := List.mem_singleton.1 hotherMem
    obtain ⟨b, -, rfl⟩ := hshaped.columns table c x hx
    obtain ⟨b', -, rfl⟩ := hshaped.tables table opaqueTable htable
    rw [String.toList_append, String.toList_append] at hsame
    exact absurd (List.cons.inj hsame).1 (by decide)

/-- Where the columns have different opaque names, so have all names of a call. -/
theorem distinct_identifierSteps (hshaped : schema.Shaped) (htable : schema.table table = some opaqueTable)
    (hnodup : columns.Nodup)
    (hdiffer : ∀ c c' x, schema.column table c = some x → schema.column table c' = some x → c = c') :
    Distinct (identifierSteps schema table opaqueTable columns) 18 := by
  refine ⟨by decide, fun step hstep => ?_, nodup_identifierSteps hshaped htable hnodup hdiffer⟩
  obtain ⟨kind, x, hkind, hopaque, heq⟩ := isOpaque_identifierSteps hshaped htable hstep
  rw [heq]
  refine length_of_isOpaque hopaque ?_
  rcases hkind with rfl | rfl <;> rfl

/-! ## A choice of opaque names -/

theorem exists_digits (avoided : List String) {n : ℕ} (h : avoided.length + n ≤ 2 ^ 64) :
    ∃ digits : List String, digits.Nodup ∧ digits.length = n ∧
      ∀ x ∈ digits, ∃ b : Bytes, b.length = 8 ∧ x = hexEncode b ∧ x ∉ avoided := by
  classical
  let all := (Finset.range (2 ^ 64)).image fun i => hexEncode (leBytes 8 i)
  have hcard : all.card = 2 ^ 64 := by
    rw [Finset.card_image_of_injOn, Finset.card_range]
    have hlt : ∀ i ∈ Finset.range (2 ^ 64), i < 256 ^ 8 := by
      intro i hi
      have hpow : 2 ^ 64 = 256 ^ 8 := by decide
      exact hpow ▸ Finset.mem_range.1 hi
    intro i hi j hj heq
    exact leBytes_injOn (hlt i hi) (hlt j hj) (hexEncode_injective heq)
  have hrest : n ≤ (all \ avoided.toFinset).card := by
    have hle := Finset.le_card_sdiff avoided.toFinset all
    have havoided := List.toFinset_card_le avoided
    omega
  obtain ⟨chosen, hsub, hchosen⟩ := Finset.exists_subset_card_eq hrest
  refine ⟨chosen.toList, chosen.nodup_toList, by rw [Finset.length_toList, hchosen], fun x hx => ?_⟩
  obtain ⟨hall, hnot⟩ := Finset.mem_sdiff.1 (hsub (Finset.mem_toList.1 hx))
  obtain ⟨i, -, rfl⟩ := Finset.mem_image.1 hall
  exact ⟨leBytes 8 i, length_leBytes 8 i, rfl, fun hmem => hnot (List.mem_toFinset.2 hmem)⟩

/-- A schema with given opaque names for the table and its columns. -/
def schemaOf (table opaqueTable : String) (columns : List String) (opaqueColumn : String → String) :
    OpaqueSchema where
  schemaKey := []
  tables := (∅ : Std.HashMap String String).insert table opaqueTable
  columns := (columns.map (table, ·)).foldl (fun m p => m.insert p (opaqueColumn p.2)) ∅
  indexes := ∅

theorem table_schemaOf (table opaqueTable : String) (columns : List String) (opaqueColumn : String → String) :
    (schemaOf table opaqueTable columns opaqueColumn).table table = some opaqueTable := by
  rw [OpaqueSchema.table, schemaOf, Std.HashMap.getElem?_insert_self]

theorem column_schemaOf (opaqueColumn : String → String) (t c : String) :
    (schemaOf table opaqueTable columns opaqueColumn).column t c =
      if t = table ∧ c ∈ columns then some (opaqueColumn c) else none := by
  have hfold := getElem?_foldl_insert (fun p : String × String => opaqueColumn p.2)
    (columns.map (table, ·)) ∅ (t, c)
  rw [Std.HashMap.getElem?_empty] at hfold
  have hmem : (t, c) ∈ columns.map (table, ·) ↔ t = table ∧ c ∈ columns := by
    rw [List.mem_map]
    constructor
    · rintro ⟨col, hcol, heq⟩
      obtain ⟨rfl, rfl⟩ := Prod.mk.inj heq
      exact ⟨rfl, hcol⟩
    · rintro ⟨rfl, hc⟩
      exact ⟨c, hc, rfl⟩
  simp only [hmem] at hfold
  exact hfold

theorem mem_of_column_schemaOf {opaqueColumn : String → String} {c x : String}
    (h : (schemaOf table opaqueTable columns opaqueColumn).column table c = some x) :
    c ∈ columns ∧ opaqueColumn c = x := by
  rw [column_schemaOf, Option.ite_none_right_eq_some, Option.some_inj] at h
  exact ⟨h.1.2, h.2⟩

/-- The table and the columns of a call have opaque names. -/
def Covers (schema : OpaqueSchema) (table : String) (columns : List String) : Prop :=
  (schema.table table).isSome ∧ ∀ col ∈ columns, (schema.column table col).isSome

/-- The replacements of a call for some schema. -/
def CallSteps (table : String) (columns : List String) (steps : Steps Char) : Prop :=
  ∃ (schema : OpaqueSchema) (opaqueTable : String), schema.Shaped ∧ Covers schema table columns ∧
    schema.table table = some opaqueTable ∧ steps = identifierSteps schema table opaqueTable columns

theorem names_of_callSteps {steps : Steps Char} (h : CallSteps table columns steps) :
    steps.map Prod.fst = columns.map String.toList ++ [table.toList] := by
  obtain ⟨schema, opaqueTable, -, ⟨-, hcolumns⟩, -, rfl⟩ := h
  rw [identifierSteps, List.map_append]
  refine congrArg (· ++ [table.toList]) ?_
  rw [columnSteps, List.map_filterMap, ← List.filterMap_eq_map]
  refine List.filterMap_congr fun col hcol => ?_
  obtain ⟨x, hx⟩ := Option.isSome_iff_exists.1 (hcolumns col hcol)
  rw [hx]
  rfl

theorem callSteps_schemaOf (table : String) {opaqueColumn : String → String} (hnodup : columns.Nodup)
    (htable : OpaqueSchema.IsOpaque "t_" opaqueTable)
    (hcolumns : ∀ c ∈ columns, OpaqueSchema.IsOpaque "c_" (opaqueColumn c))
    (hdiffer : ∀ c ∈ columns, ∀ c' ∈ columns, opaqueColumn c = opaqueColumn c' → c = c') :
    CallSteps table columns (identifierSteps (schemaOf table opaqueTable columns opaqueColumn) table
      opaqueTable columns) ∧
    Distinct (identifierSteps (schemaOf table opaqueTable columns opaqueColumn) table opaqueTable columns) 18 := by
  have hfound := table_schemaOf table opaqueTable columns opaqueColumn
  have hshaped : (schemaOf table opaqueTable columns opaqueColumn).Shaped := by
    refine ⟨fun a x hx => ?_, fun t c x hx => ?_, fun i x hx => ?_⟩
    · rw [OpaqueSchema.table, schemaOf, Std.HashMap.getElem?_insert, Std.HashMap.getElem?_empty,
        Option.ite_none_right_eq_some, Option.some_inj] at hx
      exact hx.2 ▸ htable
    · rw [column_schemaOf, Option.ite_none_right_eq_some, Option.some_inj] at hx
      exact hx.2 ▸ hcolumns c hx.1.2
    · rw [OpaqueSchema.index, schemaOf, Std.HashMap.getElem?_empty] at hx
      cases hx
  refine ⟨⟨_, opaqueTable, hshaped, ⟨?_, fun col hcol => ?_⟩, hfound, rfl⟩, ?_⟩
  · rw [hfound]
    rfl
  · rw [column_schemaOf, if_pos ⟨rfl, hcol⟩]
    rfl
  · refine distinct_identifierSteps hshaped hfound hnodup fun c c' x hx hx' => ?_
    obtain ⟨hc, rfl⟩ := mem_of_column_schemaOf hx
    obtain ⟨hc', heq⟩ := mem_of_column_schemaOf hx'
    exact (hdiffer c' hc' c hc heq).symm

theorem exists_columnNames (columns avoided : List String) (hsize : avoided.length + columns.length ≤ 2 ^ 64) :
    ∃ opaqueColumn : String → String,
      (∀ c ∈ columns, ∃ b : Bytes, b.length = 8 ∧ opaqueColumn c = "c_" ++ hexEncode b ∧
        hexEncode b ∉ avoided) ∧
      ∀ c ∈ columns, ∀ c' ∈ columns, opaqueColumn c = opaqueColumn c' → c = c' := by
  obtain ⟨digits, hnodup, hlen, hdigits⟩ := exists_digits avoided hsize
  have hget : ∀ c ∈ columns, ∃ h : columns.idxOf c < digits.length,
      digits.getD (columns.idxOf c) "" = digits[columns.idxOf c] := by
    intro c hc
    have hlt : columns.idxOf c < digits.length := hlen ▸ List.idxOf_lt_length_of_mem hc
    exact ⟨hlt, (List.getElem_eq_getD "").symm⟩
  refine ⟨fun c => "c_" ++ digits.getD (columns.idxOf c) "", fun c hc => ?_, fun c hc c' hc' heq => ?_⟩
  · obtain ⟨hlt, heq⟩ := hget c hc
    obtain ⟨b, hb, hhex, hnot⟩ := hdigits _ (List.getElem_mem hlt)
    rw [← heq] at hhex hnot
    exact ⟨b, hb, congrArg ("c_" ++ ·) hhex, hhex ▸ hnot⟩
  · obtain ⟨hlt, hc₁⟩ := hget c hc
    obtain ⟨hlt', hc₂⟩ := hget c' hc'
    have hsame := (String.append_right_inj "c_").1 heq
    rw [hc₁, hc₂, hnodup.getElem_inj_iff] at hsame
    exact (List.idxOf_inj hc).1 hsame

/-- The pieces of a text that are as long as the digits of an opaque name. -/
def windows (text : String) : List String :=
  (List.range (text.toList.length + 1)).map fun i => String.ofList ((text.toList.drop i).take 16)

theorem length_windows (text : String) : (windows text).length = text.toList.length + 1 := by
  rw [windows, List.length_map, List.length_range]

theorem not_infix_of_not_mem_windows {text kind : String} {b : Bytes} (hb : b.length = 8)
    (h : hexEncode b ∉ windows text) : ¬ (kind ++ hexEncode b).toList <:+: text.toList := by
  rw [String.toList_append]
  intro hfound
  obtain ⟨before, after, htext⟩ := List.IsInfix.trans List.infix_append_right hfound
  have hlen : (hexEncode b).toList.length = 16 := by rw [length_hexEncode, hb]
  refine h (List.mem_map.2 ⟨before.length, List.mem_range.2 ?_, ?_⟩)
  · rw [← htext, List.length_append, List.length_append]
    omega
  · rw [← htext, List.append_assoc, List.drop_left, ← hlen, List.take_left, String.ofList_toList]

/-- Any one column can keep its name. -/
theorem exists_columnNames_keeping {columns : List String} (col : String) {kept : String}
    (hkept : OpaqueSchema.IsOpaque "c_" kept) (hsize : columns.length + 1 ≤ 2 ^ 64) :
    ∃ opaqueColumn : String → String, opaqueColumn col = kept ∧
      (∀ c ∈ columns, OpaqueSchema.IsOpaque "c_" (opaqueColumn c)) ∧
      ∀ c ∈ columns, ∀ c' ∈ columns, opaqueColumn c = opaqueColumn c' → c = c' := by
  have ⟨digits, _, hkeptName⟩ := hkept
  obtain ⟨opaqueColumn, hcolumns, hdiffer⟩ := exists_columnNames columns [hexEncode digits]
    (by rw [List.length_singleton]; omega)
  have hother : ∀ c ∈ columns, opaqueColumn c ≠ kept := by
    intro c hc heq
    obtain ⟨b, -, hname, hnot⟩ := hcolumns c hc
    rw [hname, hkeptName, String.append_right_inj] at heq
    exact hnot (heq ▸ List.mem_singleton_self _)
  have hself : Function.update opaqueColumn col kept col = kept := Function.update_self _ _ _
  have hsame : ∀ c, c ≠ col → Function.update opaqueColumn col kept c = opaqueColumn c := fun c hc =>
    Function.update_of_ne hc _ _
  refine ⟨Function.update opaqueColumn col kept, hself, fun c hc => ?_, fun c hc c' hc' heq => ?_⟩
  · by_cases hcol : c = col
    · rw [hcol, hself]
      exact hkept
    · obtain ⟨b, hb, hname, -⟩ := hcolumns c hc
      rw [hsame c hcol]
      exact ⟨b, hb, hname⟩
  · by_cases hcol : c = col
    · by_cases hcol' : c' = col
      · rw [hcol, hcol']
      · rw [hcol, hself, hsame c' hcol'] at heq
        exact absurd heq.symm (hother c' hc')
    · by_cases hcol' : c' = col
      · rw [hcol', hself, hsame c hcol] at heq
        exact absurd heq (hother c hc)
      · rw [hsame c hcol, hsame c' hcol'] at heq
        exact hdiffer c hc c' hc' heq

/-- Some schema has names for the call that are all different and not in the statement. -/
theorem exists_fresh_steps (hnodup : columns.Nodup)
    (hsize : logicalSql.toList.length + columns.length + 2 ≤ 2 ^ 64) :
    ∃ steps, CallSteps table columns steps ∧ Distinct steps 18 ∧
      ∀ step ∈ steps, ¬ step.2 <:+: logicalSql.toList := by
  have hlen := length_windows logicalSql
  obtain ⟨opaqueColumn, hcolumns, hdiffer⟩ := exists_columnNames columns (windows logicalSql) (by omega)
  obtain ⟨tableDigits, -, hone, htable⟩ := exists_digits (windows logicalSql) (n := 1) (by omega)
  obtain ⟨digits, rfl⟩ := List.length_eq_one_iff.1 hone
  obtain ⟨b, hb, rfl, havoided⟩ := htable digits (List.mem_singleton_self digits)
  have hopaque : ∀ c ∈ columns, OpaqueSchema.IsOpaque "c_" (opaqueColumn c) := by
    intro c hc
    obtain ⟨b', hb', hname, -⟩ := hcolumns c hc
    exact ⟨b', hb', hname⟩
  obtain ⟨hcall, hdistinct⟩ := callSteps_schemaOf table hnodup ⟨b, hb, rfl⟩ hopaque hdiffer
  refine ⟨_, hcall, hdistinct, fun step hstep => ?_⟩
  rcases mem_identifierSteps hstep with ⟨col, x, hx, heq⟩ | heq
  · obtain ⟨hc, rfl⟩ := mem_of_column_schemaOf hx
    obtain ⟨b', hb', hname, hnot⟩ := hcolumns col hc
    rw [heq, hname]
    exact not_infix_of_not_mem_windows hb' hnot
  · rw [heq]
    exact not_infix_of_not_mem_windows hb havoided

/-- Any name of a call can be kept while the others are chosen different from it. -/
theorem exists_kept_steps (hnodup : columns.Nodup) (hsize : columns.length + 1 ≤ 2 ^ 64)
    {steps : Steps Char} {w sub : List Char} (hcall : CallSteps table columns steps)
    (hsub : steps.lookup w = some sub) :
    ∃ steps', CallSteps table columns steps' ∧ Distinct steps' 18 ∧ steps'.lookup w = some sub := by
  obtain ⟨schema, opaqueTable, hshaped, ⟨-, hcover⟩, htable, rfl⟩ := hcall
  have hopaqueTable := hshaped.tables table opaqueTable htable
  rw [identifierSteps, List.lookup_append, lookup_columnSteps] at hsub
  by_cases hmem : String.ofList w ∈ columns
  · rw [if_pos hmem] at hsub
    obtain ⟨x, hx⟩ := Option.isSome_iff_exists.1 (hcover _ hmem)
    rw [hx, Option.map_some, Option.some_or, Option.some_inj] at hsub
    obtain ⟨opaqueColumn, hself, hopaque, hdiffer⟩ :=
      exists_columnNames_keeping (String.ofList w) (hshaped.columns table _ x hx) hsize
    obtain ⟨hcall, hdistinct⟩ := callSteps_schemaOf table hnodup hopaqueTable hopaque hdiffer
    refine ⟨_, hcall, hdistinct, ?_⟩
    rw [identifierSteps, List.lookup_append, lookup_columnSteps, if_pos hmem, column_schemaOf,
      if_pos ⟨rfl, hmem⟩, hself, Option.map_some, Option.some_or, hsub]
  · rw [if_neg hmem, Option.none_or] at hsub
    obtain ⟨opaqueColumn, hcolumns, hdiffer⟩ := exists_columnNames columns []
      (by rw [List.length_nil]; omega)
    have hopaque : ∀ c ∈ columns, OpaqueSchema.IsOpaque "c_" (opaqueColumn c) := by
      intro c hc
      obtain ⟨b, hb, hname, -⟩ := hcolumns c hc
      exact ⟨b, hb, hname⟩
    obtain ⟨hcall, hdistinct⟩ := callSteps_schemaOf table hnodup hopaqueTable hopaque hdiffer
    refine ⟨_, hcall, hdistinct, ?_⟩
    rw [identifierSteps, List.lookup_append, lookup_columnSteps, if_neg hmem, Option.none_or, hsub]

/-! ## When the rewriter is right -/

theorem rewriteFull_of_separate (hshaped : schema.Shaped) (h : Separate schema logicalSql table columns) :
    rewriteFull schema logicalSql table columns = rewriteTokens schema logicalSql table columns := by
  cases htable : schema.table table with
  | none => rw [rewriteFull_none htable, rewriteTokens, htable, Option.map_none]
  | some opaqueTable =>
    rw [rewriteFull_eq_iff htable]
    exact replaceSteps_of_clear (isWord_identifierSteps hshaped htable) (h opaqueTable htable)

theorem separate_of_forall (hnodup : columns.Nodup)
    (hsize : logicalSql.toList.length + columns.length + 2 ≤ 2 ^ 64)
    (hright : ∀ schema : OpaqueSchema, schema.Shaped → Covers schema table columns →
      rewriteFull schema logicalSql table columns = rewriteTokens schema logicalSql table columns)
    {schema : OpaqueSchema} (hshaped : schema.Shaped) (hcover : Covers schema table columns) :
    Separate schema logicalSql table columns := by
  intro opaqueTable htable
  refine clear_of_forall (F := CallSteps table columns) (fun _ => names_of_callSteps) ?_
    (exists_fresh_steps hnodup hsize) (fun _ _ _ hcall => exists_kept_steps hnodup (by omega) hcall) ?_ _
    ⟨schema, opaqueTable, hshaped, hcover, htable, rfl⟩
  · rintro _ ⟨other, otherTable, hother, -, hfound, rfl⟩
    exact isWord_identifierSteps hother hfound
  · rintro _ ⟨other, otherTable, hother, hotherCover, hfound, rfl⟩
    exact (rewriteFull_eq_iff hfound).1 (hright other hother hotherCover)

/-- A call renames the tokens of its statement if each name is separate, and it does so for every schema
exactly if the names are separate for every schema. For a single schema whose columns have different
names, none of them in the statement, the two are the same. What is wanted does not depend on the order
of the columns, and without columns the two functions are the same. -/
theorem rewriteFull_iff_separate (logicalSql table : String) (columns : List String) :
    (∀ schema : OpaqueSchema, schema.Shaped → Separate schema logicalSql table columns →
      rewriteFull schema logicalSql table columns = rewriteTokens schema logicalSql table columns) ∧
    (columns.Nodup → logicalSql.toList.length + columns.length + 2 ≤ 2 ^ 64 →
      ((∀ schema : OpaqueSchema, schema.Shaped → Covers schema table columns →
          rewriteFull schema logicalSql table columns = rewriteTokens schema logicalSql table columns) ↔
        ∀ schema : OpaqueSchema, schema.Shaped → Covers schema table columns →
          Separate schema logicalSql table columns)) ∧
    (∀ (schema : OpaqueSchema) (opaqueTable : String), schema.Shaped → columns.Nodup →
      schema.table table = some opaqueTable →
      (∀ c c' x, schema.column table c = some x → schema.column table c' = some x → c = c') →
      (∀ step ∈ identifierSteps schema table opaqueTable columns, ¬ step.2 <:+: logicalSql.toList) →
      (rewriteFull schema logicalSql table columns = rewriteTokens schema logicalSql table columns ↔
        Separate schema logicalSql table columns)) ∧
    (∀ (schema : OpaqueSchema) (columns' : List String), (∀ col, col ∈ columns ↔ col ∈ columns') →
      rewriteTokens schema logicalSql table columns = rewriteTokens schema logicalSql table columns') ∧
    ∀ schema, rewriteSql schema logicalSql table = rewriteFull schema logicalSql table [] := by
  refine ⟨fun schema => rewriteFull_of_separate, ?_, ?_, fun _ _ => rewriteTokens_congr,
    fun schema => rewriteSql_eq schema logicalSql table⟩
  · intro hnodup hsize
    constructor
    · exact fun hright schema => separate_of_forall hnodup hsize hright
    · exact fun hseparate schema hshaped hcover =>
        rewriteFull_of_separate hshaped (hseparate schema hshaped hcover)
  · intro schema opaqueTable hshaped hnodup htable hdiffer hlogical
    rw [rewriteFull_eq_iff htable, replaceSteps_eq_iff (isWord_identifierSteps hshaped htable)
      (distinct_identifierSteps hshaped htable hnodup hdiffer) hlogical]
    constructor
    · intro hclear other hother
      obtain rfl := Option.some.inj (htable.symm.trans hother)
      exact hclear
    · exact fun hseparate => hseparate opaqueTable htable

/-! ## A table whose name starts with a column -/

section
open OpaqueSchema SampleSchema

theorem table_inodes : (new key inodes).table "inodes" = some "t_2d0c3126167ddbf8" := by
  rw [table_new]
  decide +kernel

theorem steps_inodes : identifierSteps (new key inodes) "inodes" "t_2d0c3126167ddbf8" ["ino", "data", "parent"] =
    [("ino".toList, "c_5fcf427e69b1e0fd".toList), ("data".toList, "c_7d3b9d41387d2eb5".toList),
      ("parent".toList, "c_e585935ae704eb23".toList), ("inodes".toList, "t_2d0c3126167ddbf8".toList)] := by
  rw [identifierSteps, columnSteps]
  simp only [column_new]
  decide +kernel

/-- The statement of the test. -/
def testSql : String := "SELECT ino, data FROM inodes WHERE parent = ?"

/-- The column takes the start of the name of the table, which is then not found. -/
theorem rewriteFull_inodes :
    rewriteFull (new key inodes) testSql "inodes" ["ino", "data", "parent"] = some
      "SELECT c_5fcf427e69b1e0fd, c_7d3b9d41387d2eb5 FROM c_5fcf427e69b1e0fddes WHERE c_e585935ae704eb23 = ?" ∧
    rewriteTokens (new key inodes) testSql "inodes" ["ino", "data", "parent"] = some
      "SELECT c_5fcf427e69b1e0fd, c_7d3b9d41387d2eb5 FROM t_2d0c3126167ddbf8 WHERE c_e585935ae704eb23 = ?" ∧
    rewriteFull (new key inodes) testSql "inodes" ["ino", "data", "parent"] ≠
      rewriteTokens (new key inodes) testSql "inodes" ["ino", "data", "parent"] := by
  rw [rewriteFull_eq table_inodes, rewriteTokens_eq table_inodes, steps_inodes]
  decide +kernel

/-- A statement without that column. -/
def separateSql : String := "SELECT data FROM inodes WHERE parent = ?"

def separateColumns : List String := ["data", "parent"]

theorem steps_separate : identifierSteps (new key inodes) "inodes" "t_2d0c3126167ddbf8" separateColumns =
    [("data".toList, "c_7d3b9d41387d2eb5".toList), ("parent".toList, "c_e585935ae704eb23".toList),
      ("inodes".toList, "t_2d0c3126167ddbf8".toList)] := by
  rw [identifierSteps, columnSteps]
  simp only [column_new]
  decide +kernel

theorem separate_inodes : Separate (new key inodes) separateSql "inodes" separateColumns := by
  intro opaqueTable htable
  obtain rfl := Option.some.inj (table_inodes.symm.trans htable)
  rw [steps_separate]
  decide +kernel

theorem rewriteFull_iff_separate_sample :
    rewriteFull (new key inodes) separateSql "inodes" separateColumns =
      rewriteTokens (new key inodes) separateSql "inodes" separateColumns ∧
    ((∀ schema : OpaqueSchema, schema.Shaped → Covers schema "inodes" separateColumns →
        rewriteFull schema separateSql "inodes" separateColumns =
          rewriteTokens schema separateSql "inodes" separateColumns) ↔
      ∀ schema : OpaqueSchema, schema.Shaped → Covers schema "inodes" separateColumns →
        Separate schema separateSql "inodes" separateColumns) ∧
    (rewriteFull (new key inodes) separateSql "inodes" separateColumns =
        rewriteTokens (new key inodes) separateSql "inodes" separateColumns ↔
      Separate (new key inodes) separateSql "inodes" separateColumns) ∧
    rewriteTokens (new key inodes) separateSql "inodes" separateColumns =
      rewriteTokens (new key inodes) separateSql "inodes" separateColumns.reverse := by
  have htrunc : TruncationInjective key (hashedInputs inodes) := by
    unfold TruncationInjective
    decide +kernel
  have hdiffer : ∀ c c' x, (new key inodes).column "inodes" c = some x →
      (new key inodes).column "inodes" c' = some x → c = c' := fun c c' x hc hc' =>
    ((unambiguous_new htrunc).columns _ _ _ _ x hc hc').2
  have hlogical : ∀ step ∈ identifierSteps (new key inodes) "inodes" "t_2d0c3126167ddbf8" separateColumns,
      ¬ step.2 <:+: separateSql.toList := by
    rw [steps_separate]
    decide +kernel
  have hshaped := shaped_new key inodes
  obtain ⟨henough, hall, hsingle, horder, -⟩ := rewriteFull_iff_separate separateSql "inodes" separateColumns
  exact ⟨henough _ hshaped separate_inodes, hall (by decide) (by decide),
    hsingle _ _ hshaped (by decide) table_inodes hdiffer hlogical,
    horder _ _ fun col => List.mem_reverse.symm⟩

end

end QueryRewriter
end TgCryptFs
