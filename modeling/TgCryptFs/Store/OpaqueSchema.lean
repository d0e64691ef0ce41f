import Mathlib.Data.List.Infix
import Std.Data.HashMap.Lemmas
import TgCryptFs.Library.LengthPrefix
import TgCryptFs.Core.Sample

set_option autoImplicit false

/-!
# Opaque names

The identifiers of the database are derived from the logical names with a keyed hash. What is
hashed says where the domain ends and the name starts, and the kind of the object stands in front
of the digits.
-/
namespace TgCryptFs
open Library

/-- Keyed BLAKE3. Arguments: key, data. -/
class KeyedHash where
  keyedHash : Bytes → Bytes → Bytes
  length_keyedHash : ∀ key data, (keyedHash key data).length = 32

export KeyedHash (keyedHash)

/-- An allocation holds less than 2^63 bytes. -/
abbrev RustString := {s : String // (utf8 s).length < 2 ^ 63}

/-- What `derive_opaque_id` hashes. -/
def opaqueInput (domain name : String) : Bytes :=
  leBytes 8 (utf8 domain).length ++ utf8 domain ++ leBytes 8 (utf8 name).length ++ utf8 name

def deriveOpaqueId [KeyedHash] (key : Bytes) (domain name : String) : Bytes :=
  keyedHash key (opaqueInput domain name)

/-- Logical table definition for schema building. -/
structure TableDef where
  name : RustString
  columns : List RustString
  indexes : List RustString
deriving DecidableEq

/-- What stands in front of the digits. -/
def kindOf (domain : String) : String :=
  if "col:".toList <+: domain.toList then "c_"
  else if domain = "idx" then "i_"
  else "t_"

def deriveName [KeyedHash] (key : Bytes) (domain name : String) : String :=
  kindOf domain ++ hexEncode ((deriveOpaqueId key domain name).take 8)

structure OpaqueSchema where
  schemaKey : Bytes
  tables : Std.HashMap String String
  columns : Std.HashMap (String × String) String
  indexes : Std.HashMap String String

namespace OpaqueSchema

def columnDomain (table : String) : String := "col:" ++ table

/-- One round of the loop of `OpaqueSchema::new`. -/
def addTable [KeyedHash] (schema : OpaqueSchema) (tableDef : TableDef) : OpaqueSchema :=
  { schema with
    tables := schema.tables.insert tableDef.name.val
      (deriveName schema.schemaKey "table" tableDef.name.val)
    columns := tableDef.columns.foldl (fun columns col =>
      columns.insert (tableDef.name.val, col.val)
        (deriveName schema.schemaKey (columnDomain tableDef.name.val) col.val)) schema.columns
    indexes := tableDef.indexes.foldl (fun indexes idx =>
      indexes.insert idx.val (deriveName schema.schemaKey "idx" idx.val)) schema.indexes }

def new [KeyedHash] (schemaKey : Bytes) (logicalTables : List TableDef) : OpaqueSchema :=
  logicalTables.foldl addTable ⟨schemaKey, ∅, ∅, ∅⟩

def table (schema : OpaqueSchema) (logical : String) : Option String := schema.tables[logical]?

def column (schema : OpaqueSchema) (table logicalCol : String) : Option String :=
  schema.columns[(table, logicalCol)]?

def index (schema : OpaqueSchema) (logical : String) : Option String := schema.indexes[logical]?

end OpaqueSchema

/-! ## The hashed bytes -/

theorem opaqueInput_eq (domain name : String) :
    opaqueInput domain name = lengthPrefixedAll 8 [utf8 domain, utf8 name] := by
  simp only [opaqueInput, lengthPrefixedAll, lengthPrefixed, List.flatMap_cons, List.flatMap_nil,
    List.append_nil, List.append_assoc]

theorem opaqueInput_inj {domain name domain' name' : String} (hdomain : (utf8 domain).length < 2 ^ 64)
    (hname : (utf8 name).length < 2 ^ 64) (hdomain' : (utf8 domain').length < 2 ^ 64)
    (hname' : (utf8 name').length < 2 ^ 64) (h : opaqueInput domain name = opaqueInput domain' name') :
    domain = domain' ∧ name = name' := by
  rw [opaqueInput_eq, opaqueInput_eq] at h
  have hfields : [utf8 domain, utf8 name] = [utf8 domain', utf8 name'] := lengthPrefixedAll_inj rfl
    (List.forall_mem_cons.2 ⟨hdomain, List.forall_mem_singleton.2 hname⟩)
    (List.forall_mem_cons.2 ⟨hdomain', List.forall_mem_singleton.2 hname'⟩) h
  obtain ⟨hfirst, hrest⟩ := List.cons.inj hfields
  exact ⟨utf8_injective hfirst, utf8_injective (List.cons.inj hrest).1⟩

theorem length_utf8_append (a b : String) : (utf8 (a ++ b)).length = (utf8 a).length + (utf8 b).length := by
  rw [utf8, String.toList_append, List.flatMap_append, List.length_append]
  rfl

/-! ## The maps -/

theorem getElem?_foldl_insert {K V : Type} [BEq K] [LawfulBEq K] [Hashable K] [DecidableEq K] (value : K → V)
    (keys : List K) (m : Std.HashMap K V) (k : K) :
    (keys.foldl (fun m k => m.insert k (value k)) m)[k]? = if k ∈ keys then some (value k) else m[k]? := by
  induction keys generalizing m with
  | nil => rfl
  | cons key keys ih =>
    rw [List.foldl_cons, ih, Std.HashMap.getElem?_insert]
    by_cases hmem : k ∈ keys
    · rw [if_pos hmem, if_pos (List.mem_cons_of_mem _ hmem)]
    · rw [if_neg hmem]
      by_cases hk : key = k
      · subst hk
        rw [if_pos BEq.rfl, if_pos List.mem_cons_self]
      · rw [if_neg (by simpa using hk), if_neg]
        intro h
        exact (List.mem_cons.1 h).elim (fun heq => hk heq.symm) hmem

namespace OpaqueSchema

def tableNames (defs : List TableDef) : List String := defs.map fun tableDef => tableDef.name.val

/-- The columns with their tables. -/
def columnNames (defs : List TableDef) : List (String × String) :=
  defs.flatMap fun tableDef => tableDef.columns.map fun col => (tableDef.name.val, col.val)

def indexNames (defs : List TableDef) : List String :=
  defs.flatMap fun tableDef => tableDef.indexes.map fun idx => idx.val

variable [KeyedHash]

theorem foldl_addTable (schema : OpaqueSchema) (defs : List TableDef) :
    defs.foldl addTable schema =
      { schemaKey := schema.schemaKey
        tables := (tableNames defs).foldl (fun m a =>
          m.insert a (deriveName schema.schemaKey "table" a)) schema.tables
        columns := (columnNames defs).foldl (fun m p =>
          m.insert p (deriveName schema.schemaKey (columnDomain p.1) p.2)) schema.columns
        indexes := (indexNames defs).foldl (fun m i =>
          m.insert i (deriveName schema.schemaKey "idx" i)) schema.indexes } := by
  induction defs generalizing schema with
  | nil => rfl
  | cons tableDef defs ih =>
    rw [List.foldl_cons, ih]
    simp only [addTable, tableNames, columnNames, indexNames, List.map_cons, List.flatMap_cons,
      List.foldl_cons, List.foldl_append, List.foldl_map]

theorem new_eq (key : Bytes) (defs : List TableDef) : new key defs =
    { schemaKey := key
      tables := (tableNames defs).foldl (fun m a => m.insert a (deriveName key "table" a)) ∅
      columns := (columnNames defs).foldl (fun m p =>
        m.insert p (deriveName key (columnDomain p.1) p.2)) ∅
      indexes := (indexNames defs).foldl (fun m i => m.insert i (deriveName key "idx" i)) ∅ } :=
  foldl_addTable _ defs

theorem table_new (key : Bytes) (defs : List TableDef) (a : String) :
    (new key defs).table a = if a ∈ tableNames defs then some (deriveName key "table" a) else none := by
  rw [table, new_eq, getElem?_foldl_insert (deriveName key "table"), Std.HashMap.getElem?_empty]

theorem column_new (key : Bytes) (defs : List TableDef) (t c : String) :
    (new key defs).column t c =
      if (t, c) ∈ columnNames defs then some (deriveName key (columnDomain t) c) else none := by
  have hfold := getElem?_foldl_insert
    (fun p : String × String => deriveName key (columnDomain p.1) p.2) (columnNames defs) ∅ (t, c)
  rw [Std.HashMap.getElem?_empty] at hfold
  rw [column, new_eq]
  exact hfold

theorem index_new (key : Bytes) (defs : List TableDef) (i : String) :
    (new key defs).index i = if i ∈ indexNames defs then some (deriveName key "idx" i) else none := by
  rw [index, new_eq, getElem?_foldl_insert (deriveName key "idx"), Std.HashMap.getElem?_empty]

end OpaqueSchema

/-! ## The names -/

theorem length_kindOf (domain : String) : (kindOf domain).toList.length = 2 := by
  unfold kindOf
  split_ifs <;> rfl

theorem kindOf_table : kindOf "table" = "t_" := by decide

theorem kindOf_idx : kindOf "idx" = "i_" := by decide

theorem kindOf_columnDomain (t : String) : kindOf (OpaqueSchema.columnDomain t) = "c_" := by
  rw [kindOf, if_pos]
  rw [OpaqueSchema.columnDomain, String.toList_append]
  exact List.prefix_append _ _

section
variable [KeyedHash]

theorem deriveName_eq_iff {key : Bytes} {domain name domain' name' : String} :
    deriveName key domain name = deriveName key domain' name' ↔ kindOf domain = kindOf domain' ∧
      (deriveOpaqueId key domain name).take 8 = (deriveOpaqueId key domain' name').take 8 := by
  constructor
  · intro h
    have hlist := congrArg String.toList h
    rw [deriveName, deriveName, String.toList_append, String.toList_append] at hlist
    obtain ⟨hkind, hhex⟩ := List.append_inj hlist (by rw [length_kindOf, length_kindOf])
    exact ⟨String.toList_inj.1 hkind, hexEncode_injective (String.toList_inj.1 hhex)⟩
  · rintro ⟨hkind, hid⟩
    rw [deriveName, deriveName, hkind, hid]

/-- What is hashed for the names of a schema. -/
def OpaqueSchema.hashedInputs (defs : List TableDef) : List Bytes :=
  (OpaqueSchema.tableNames defs).map (opaqueInput "table") ++
  (OpaqueSchema.columnNames defs).map (fun p => opaqueInput (OpaqueSchema.columnDomain p.1) p.2) ++
  (OpaqueSchema.indexNames defs).map (opaqueInput "idx")

/-- Eight bytes of the keyed hash tell the inputs apart. -/
def TruncationInjective (key : Bytes) (inputs : List Bytes) : Prop :=
  ∀ x ∈ inputs, ∀ y ∈ inputs, (keyedHash key x).take 8 = (keyedHash key y).take 8 → x = y

namespace OpaqueSchema

/-- Every listed name has an identifier, and an identifier belongs to one name of one kind. -/
structure Unambiguous (schema : OpaqueSchema) (defs : List TableDef) : Prop where
  named : (∀ a ∈ tableNames defs, (schema.table a).isSome) ∧
    (∀ p ∈ columnNames defs, (schema.column p.1 p.2).isSome) ∧
    ∀ i ∈ indexNames defs, (schema.index i).isSome
  tables : ∀ a b x, schema.table a = some x → schema.table b = some x → a = b
  columns : ∀ t c t' c' x, schema.column t c = some x → schema.column t' c' = some x → t = t' ∧ c = c'
  indexes : ∀ i j x, schema.index i = some x → schema.index j = some x → i = j
  kinds : ∀ a t c i x, (schema.table a = some x → schema.column t c ≠ some x ∧ schema.index i ≠ some x) ∧
    (schema.column t c = some x → schema.index i ≠ some x)

theorem table_eq_some {key : Bytes} {defs : List TableDef} {a x : String} :
    (new key defs).table a = some x ↔ a ∈ tableNames defs ∧ deriveName key "table" a = x := by
  rw [table_new, Option.ite_none_right_eq_some, Option.some_inj]

theorem column_eq_some {key : Bytes} {defs : List TableDef} {t c x : String} :
    (new key defs).column t c = some x ↔
      (t, c) ∈ columnNames defs ∧ deriveName key (columnDomain t) c = x := by
  rw [column_new, Option.ite_none_right_eq_some, Option.some_inj]

theorem index_eq_some {key : Bytes} {defs : List TableDef} {i x : String} :
    (new key defs).index i = some x ↔ i ∈ indexNames defs ∧ deriveName key "idx" i = x := by
  rw [index_new, Option.ite_none_right_eq_some, Option.some_inj]

omit [KeyedHash] in
theorem tableNames_lt {defs : List TableDef} {a : String} (h : a ∈ tableNames defs) :
    (utf8 a).length < 2 ^ 64 := by
  obtain ⟨tableDef, -, rfl⟩ := List.mem_map.1 h
  have := tableDef.name.property
  omega

omit [KeyedHash] in
theorem columnNames_lt {defs : List TableDef} {t c : String} (h : (t, c) ∈ columnNames defs) :
    (utf8 (columnDomain t)).length < 2 ^ 64 ∧ (utf8 c).length < 2 ^ 64 := by
  obtain ⟨tableDef, -, hcol⟩ := List.mem_flatMap.1 h
  obtain ⟨col, -, heq⟩ := List.mem_map.1 hcol
  obtain ⟨rfl, rfl⟩ := Prod.mk.inj heq
  have hname := tableDef.name.property
  have hcolumn := col.property
  have hdomain : (utf8 "col:").length = 4 := by decide
  rw [columnDomain, length_utf8_append]
  omega

omit [KeyedHash] in
theorem indexNames_lt {defs : List TableDef} {i : String} (h : i ∈ indexNames defs) :
    (utf8 i).length < 2 ^ 64 := by
  obtain ⟨tableDef, -, hidx⟩ := List.mem_flatMap.1 h
  obtain ⟨idx, -, rfl⟩ := List.mem_map.1 hidx
  have := idx.property
  omega

/-- Within a schema an identifier determines the domain and the name it was derived from. -/
theorem deriveName_inj {key : Bytes} {inputs : List Bytes} (htrunc : TruncationInjective key inputs)
    {domain name domain' name' : String} (hmem : opaqueInput domain name ∈ inputs)
    (hmem' : opaqueInput domain' name' ∈ inputs) (hdomain : (utf8 domain).length < 2 ^ 64)
    (hname : (utf8 name).length < 2 ^ 64) (hdomain' : (utf8 domain').length < 2 ^ 64)
    (hname' : (utf8 name').length < 2 ^ 64)
    (h : deriveName key domain name = deriveName key domain' name') : domain = domain' ∧ name = name' :=
  opaqueInput_inj hdomain hname hdomain' hname' (htrunc _ hmem _ hmem' (deriveName_eq_iff.1 h).2)

theorem unambiguous_new {key : Bytes} {defs : List TableDef}
    (htrunc : TruncationInjective key (hashedInputs defs)) : (new key defs).Unambiguous defs := by
  have htableMem : ∀ a ∈ tableNames defs, opaqueInput "table" a ∈ hashedInputs defs := fun a ha =>
    List.mem_append_left _ (List.mem_append_left _ (List.mem_map_of_mem ha))
  have hcolumnMem : ∀ t c, (t, c) ∈ columnNames defs →
      opaqueInput (columnDomain t) c ∈ hashedInputs defs := fun t c h =>
    List.mem_append_left _ (List.mem_append_right _ (List.mem_map.2 ⟨(t, c), h, rfl⟩))
  have hindexMem : ∀ i ∈ indexNames defs, opaqueInput "idx" i ∈ hashedInputs defs := fun i hi =>
    List.mem_append_right _ (List.mem_map_of_mem hi)
  have hkinds : kindOf "table" ≠ "c_" ∧ kindOf "table" ≠ "i_" ∧ "c_" ≠ "i_" := by decide
  constructor
  case named =>
    refine ⟨fun a ha => ?_, fun p hp => ?_, fun i hi => ?_⟩
    · rw [table_new, if_pos ha]
      rfl
    · rw [column_new, if_pos hp]
      rfl
    · rw [index_new, if_pos hi]
      rfl
  case tables =>
    intro a b x ha hb
    obtain ⟨hmem, rfl⟩ := table_eq_some.1 ha
    obtain ⟨hmem', heq⟩ := table_eq_some.1 hb
    exact (deriveName_inj htrunc (htableMem b hmem') (htableMem a hmem) (by decide) (tableNames_lt hmem')
      (by decide) (tableNames_lt hmem) heq).2.symm
  case columns =>
    intro t c t' c' x hc hc'
    obtain ⟨hmem, rfl⟩ := column_eq_some.1 hc
    obtain ⟨hmem', heq⟩ := column_eq_some.1 hc'
    obtain ⟨hdomain, hname⟩ := deriveName_inj htrunc (hcolumnMem t' c' hmem') (hcolumnMem t c hmem)
      (columnNames_lt hmem').1 (columnNames_lt hmem').2 (columnNames_lt hmem).1 (columnNames_lt hmem).2 heq
    exact ⟨(String.append_right_inj "col:").1 hdomain.symm, hname.symm⟩
  case indexes =>
    intro i j x hi hj
    obtain ⟨hmem, rfl⟩ := index_eq_some.1 hi
    obtain ⟨hmem', heq⟩ := index_eq_some.1 hj
    exact (deriveName_inj htrunc (hindexMem j hmem') (hindexMem i hmem) (by decide) (indexNames_lt hmem')
      (by decide) (indexNames_lt hmem) heq).2.symm
  case kinds =>
    intro a t c i x
    refine ⟨fun ha => ⟨fun hc => ?_, fun hi => ?_⟩, fun hc hi => ?_⟩
    · have hkind := (deriveName_eq_iff.1 ((table_eq_some.1 ha).2.trans (column_eq_some.1 hc).2.symm)).1
      rw [kindOf_columnDomain] at hkind
      exact hkinds.1 hkind
    · have hkind := (deriveName_eq_iff.1 ((table_eq_some.1 ha).2.trans (index_eq_some.1 hi).2.symm)).1
      rw [kindOf_idx] at hkind
      exact hkinds.2.1 hkind
    · have hkind := (deriveName_eq_iff.1 ((column_eq_some.1 hc).2.trans (index_eq_some.1 hi).2.symm)).1
      rw [kindOf_columnDomain, kindOf_idx] at hkind
      exact hkinds.2.2 hkind

omit [KeyedHash] in
/-- A kind and sixteen digits. -/
def IsOpaque (kind x : String) : Prop := ∃ b : Bytes, b.length = 8 ∧ x = kind ++ hexEncode b

omit [KeyedHash] in
structure Shaped (schema : OpaqueSchema) : Prop where
  tables : ∀ a x, schema.table a = some x → IsOpaque "t_" x
  columns : ∀ t c x, schema.column t c = some x → IsOpaque "c_" x
  indexes : ∀ i x, schema.index i = some x → IsOpaque "i_" x

theorem shaped_new (key : Bytes) (defs : List TableDef) : (new key defs).Shaped := by
  have hshape : ∀ {domain name x kind : String}, kindOf domain = kind → deriveName key domain name = x →
      IsOpaque kind x := by
    rintro domain name _ _ rfl rfl
    refine ⟨(deriveOpaqueId key domain name).take 8, ?_, rfl⟩
    rw [List.length_take, deriveOpaqueId, KeyedHash.length_keyedHash]
    rfl
  exact ⟨fun a x h => hshape kindOf_table (table_eq_some.1 h).2,
    fun t c x h => hshape (kindOf_columnDomain t) (column_eq_some.1 h).2,
    fun i x h => hshape kindOf_idx (index_eq_some.1 h).2⟩

/-- The hashed bytes determine the domain and the name; where eight bytes of the keyed hash tell the
inputs of a schema apart, its identifiers are unambiguous. -/
theorem opaque_names_unambiguous (key : Bytes) (defs : List TableDef)
    (htrunc : TruncationInjective key (hashedInputs defs)) :
    (∀ domain name domain' name' : RustString,
      opaqueInput domain.val name.val = opaqueInput domain'.val name'.val →
      domain = domain' ∧ name = name') ∧
    (new key defs).Unambiguous defs := by
  constructor
  · rintro ⟨domain, hdomain⟩ ⟨name, hname⟩ ⟨domain', hdomain'⟩ ⟨name', hname'⟩ h
    have hwiden : ∀ {n : ℕ}, n < 2 ^ 63 → n < 2 ^ 64 := fun h => by omega
    obtain ⟨heq, heq'⟩ :=
      opaqueInput_inj (hwiden hdomain) (hwiden hname) (hwiden hdomain') (hwiden hname') h
    exact ⟨Subtype.ext heq, Subtype.ext heq'⟩
  · exact unambiguous_new htrunc

end OpaqueSchema

end

/-! ## Schemas under one key -/

namespace SampleSchema

def key : Bytes := List.replicate 32 0x42

/-- Keyed BLAKE3 of what is hashed for a domain and a name. -/
def digests : List ((String × String) × ℕ) :=
  [(("table", "a"), 0x58095f7d266dd3d0fd912f7962d26ce0a60c02a86d49275bcd5003acec17eeb0),
    (("table", "b"), 0x12f66310a7c01318b2f4c4d734f0aaf719053a754d85c0c381cbd0cf5a86116e),
    (("col:a", "id"), 0x2f18ab9a4142483982f1c5dcd80987dfec9e06dcc2ffdcd1971314bd2ccb032c),
    (("col:b", "id"), 0xd6a3b56040d3ac7f03e45df0b7895f9bedf8d6bd58a83fe01ac36e3bf1f10586),
    (("idx", "a_id"), 0x157341961ad8fdd0ca3852a444cb67cb2d43e1aa0d82762cf1dca2bd73bae1e2),
    (("table", "inodes"), 0x2d0c3126167ddbf840ef1c0dcd345494bb05b82338130f742040853a36be339b),
    (("col:inodes", "ino"), 0x5fcf427e69b1e0fdcb76c49b08fcc40e6a1889a0572c68227d117786fedf189a),
    (("col:inodes", "parent"), 0xe585935ae704eb2399d2aebc3419763316850d2e4da75fd4f9cc8160efed70a0),
    (("col:inodes", "data"), 0x7d3b9d41387d2eb57450be97078adc57acd96b1eb7cdbe824d94eb138a757776)]

/-- Keyed BLAKE3 where the digest is known. -/
def hash (key' data : Bytes) : Bytes :=
  match digests.find? fun d => opaqueInput d.1.1 d.1.2 = data with
  | some d => if key' = key then Sample.digestBytes d.2 else List.replicate 32 0
  | none => List.replicate 32 0

scoped instance : KeyedHash where
  keyedHash := hash
  length_keyedHash := by
    intro key' data
    unfold hash
    split
    · split_ifs
      · rw [Sample.digestBytes, List.length_map, List.length_range]
      · rw [List.length_replicate]
    · rw [List.length_replicate]

/-- Two tables with a column of the same name. -/
def defs : List TableDef :=
  [⟨⟨"a", by decide⟩, [⟨"id", by decide⟩], [⟨"a_id", by decide⟩]⟩,
    ⟨⟨"b", by decide⟩, [⟨"id", by decide⟩], []⟩]

/-- One table with the start of its name for a column. -/
def inodes : List TableDef :=
  [⟨⟨"inodes", by decide⟩, [⟨"ino", by decide⟩, ⟨"parent", by decide⟩, ⟨"data", by decide⟩], []⟩]

end SampleSchema

open SampleSchema in
theorem OpaqueSchema.opaque_names_unambiguous_sample :
    TruncationInjective key (hashedInputs defs) ∧ (new key defs).Unambiguous defs := by
  have htrunc : TruncationInjective key (hashedInputs defs) := by
    unfold TruncationInjective
    decide +kernel
  exact ⟨htrunc, (opaque_names_unambiguous key defs htrunc).2⟩

end TgCryptFs
