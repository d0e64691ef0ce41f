import Mathlib
import TgCryptFs.Library.Catalogue
import TgCryptFs.Library.Results
import TgCryptFs.Store.OpaqueSchema

set_option autoImplicit false

/-!
# The tables of the database

`initialize_database` is run whenever a database is opened, and by several processes at once. Its
statements are laid out here under their logical names, next to the list from which the schema
derives the opaque ones.
-/
namespace TgCryptFs
open Library

def rustString (s : String) (h : (utf8 s).length + 1 ≤ 2 ^ 63 := by decide) : RustString := ⟨s, h⟩

def logicalTables : List TableDef :=
  [{ name := rustString "volume"
     columns := [rustString "volume_id", rustString "data", rustString "created_at",
       rustString "updated_at"]
     indexes := [] },
   { name := rustString "inodes"
     columns := [rustString "ino", rustString "parent", rustString "name_hash", rustString "data",
       rustString "version"]
     indexes := [rustString "inodes_parent", rustString "inodes_parent_name"] },
   { name := rustString "blocks"
     columns := [rustString "rid", rustString "content_hash", rustString "message_id",
       rustString "encrypted_size", rustString "epoch", rustString "ref_count",
       rustString "compressed"]
     indexes := [rustString "blocks_content_hash", rustString "blocks_message_id"] },
   { name := rustString "manifests"
     columns := [rustString "ino", rustString "version", rustString "data",
       rustString "created_at"]
     indexes := [] },
   { name := rustString "snapshots"
     columns := [rustString "sid", rustString "timestamp", rustString "data", rustString "ino"]
     indexes := [rustString "snapshots_ts", rustString "snapshots_ino"] },
   { name := rustString "policies"
     columns := [rustString "pid", rustString "data"]
     indexes := [] },
   { name := rustString "path_policies"
     columns := [rustString "path_pattern", rustString "pid", rustString "priority"]
     indexes := [rustString "path_policies_pattern"] },
   { name := rustString "users"
     columns := [rustString "uid", rustString "data", rustString "active"]
     indexes := [] },
   { name := rustString "audit_log"
     columns := [rustString "id", rustString "timestamp", rustString "uid", rustString "action",
       rustString "details"]
     indexes := [rustString "audit_ts"] },
   { name := rustString "deadman"
     columns := [rustString "vid", rustString "data", rustString "armed",
       rustString "last_check"]
     indexes := [] },
   { name := rustString "shares"
     columns := [rustString "sid", rustString "volume_id", rustString "uid", rustString "data",
       rustString "active"]
     indexes := [rustString "shares_volume"] },
   { name := rustString "invites"
     columns := [rustString "invite_id", rustString "volume_id", rustString "data",
       rustString "active"]
     indexes := [rustString "invites_volume"] }]

/-! ## The statements -/

namespace Migrations

/-- A table and its indices, under logical names. -/
abbrev Batch := TableSpec × List IndexSpec

/-- `{c} BLOB NOT NULL`, and so on. -/
def required (name : String) (type : SqlType) (default : Option ℤ := none) : ColumnSpec :=
  { name := name, type := type, notNull := true, default := default }

def keyed (name : String) (type : SqlType) (autoincrement : Bool := false) : ColumnSpec :=
  { name := name, type := type, primaryKey := true, autoincrement := autoincrement }

def nullable (name : String) (type : SqlType) : ColumnSpec := { name := name, type := type }

def volume : Batch :=
  ({ name := "volume"
     columns := [keyed "volume_id" .text, required "data" .blob, required "created_at" .integer,
       required "updated_at" .integer] }, [])

def inodes : Batch :=
  ({ name := "inodes"
     columns := [keyed "ino" .integer, required "parent" .integer, required "name_hash" .blob,
       required "data" .blob, required "version" .integer (some 0)] },
    [{ name := "inodes_parent", table := "inodes", columns := ["parent"] },
     { name := "inodes_parent_name", table := "inodes", columns := ["parent", "name_hash"],
       unique := true }])

def blocks : Batch :=
  ({ name := "blocks"
     columns := [keyed "rid" .blob, required "content_hash" .blob,
       required "message_id" .integer, required "encrypted_size" .integer,
       required "epoch" .integer, required "ref_count" .integer (some 1),
       required "compressed" .integer (some 0)] },
    [{ name := "blocks_content_hash", table := "blocks", columns := ["content_hash"] },
     { name := "blocks_message_id", table := "blocks", columns := ["message_id"] }])

def manifests : Batch :=
  ({ name := "manifests"
     columns := [required "ino" .integer, required "version" .integer, required "data" .blob,
       required "created_at" .integer]
     primaryKey := ["ino", "version"] }, [])

def snapshots : Batch :=
  ({ name := "snapshots"
     columns := [keyed "sid" .integer true, required "timestamp" .integer,
       required "data" .blob, required "ino" .integer] },
    [{ name := "snapshots_ts", table := "snapshots", columns := ["timestamp"] },
     { name := "snapshots_ino", table := "snapshots", columns := ["ino"] }])

def policies : Batch :=
  ({ name := "policies", columns := [keyed "pid" .integer, required "data" .blob] }, [])

def pathPolicies : Batch :=
  ({ name := "path_policies"
     columns := [required "path_pattern" .blob, required "pid" .integer,
       required "priority" .integer] },
    [{ name := "path_policies_pattern", table := "path_policies",
       columns := ["path_pattern"] }])

def users : Batch :=
  ({ name := "users"
     columns := [keyed "uid" .text, required "data" .blob,
       required "active" .integer (some 1)] }, [])

def auditLog : Batch :=
  ({ name := "audit_log"
     columns := [keyed "id" .integer true, required "timestamp" .integer, nullable "uid" .text,
       required "action" .blob, nullable "details" .blob] },
    [{ name := "audit_ts", table := "audit_log", columns := ["timestamp"] }])

def deadman : Batch :=
  ({ name := "deadman"
     columns := [keyed "vid" .text, required "data" .blob, required "armed" .integer (some 0),
       nullable "last_check" .integer] }, [])

def shares : Batch :=
  ({ name := "shares"
     columns := [keyed "sid" .text, required "volume_id" .text, required "uid" .text,
       required "data" .blob, required "active" .integer (some 1)] },
    [{ name := "shares_volume", table := "shares", columns := ["volume_id"] }])

def invites : Batch :=
  ({ name := "invites"
     columns := [keyed "invite_id" .text, required "volume_id" .text, required "data" .blob,
       required "active" .integer (some 1)] },
    [{ name := "invites_volume", table := "invites", columns := ["volume_id"] }])

/-- In the order of the source. -/
def batches : List Batch :=
  [volume, inodes, blocks, manifests, snapshots, policies, pathPolicies, users, auditLog, deadman,
    shares, invites]

end Migrations

/-! ## Under opaque names -/

inductive InitError where
  | invalidParameterName (text : String)
  | sqlite (e : CatalogueError)

namespace OpaqueSchema

section

variable (schema : OpaqueSchema)

def requireTable (logical : String) : Except String String :=
  (schema.table logical).elim (.error s!"missing schema table: {logical}") .ok

def requireColumn (table logicalCol : String) : Except String String :=
  (schema.column table logicalCol).elim
    (.error s!"missing schema column: {table}.{logicalCol}") .ok

def requireIndex (logical : String) : Except String String :=
  (schema.index logical).elim (.error s!"missing schema index: {logical}") .ok

def requireColumnSpec (table : String) (c : ColumnSpec) : Except String ColumnSpec := do
  let name ← schema.requireColumn table c.name
  return { c with name := name }

def requireIndexSpec (i : IndexSpec) : Except String IndexSpec := do
  let name ← schema.requireIndex i.name
  let table ← schema.requireTable i.table
  let columns ← i.columns.mapM (schema.requireColumn i.table)
  return { i with name := name, table := table, columns := columns }

/-- The names of a batch, in the order in which they are asked for. -/
def requireBatch (b : Migrations.Batch) : Except String Migrations.Batch := do
  let name ← schema.requireTable b.1.name
  let columns ← b.1.columns.mapM (schema.requireColumnSpec b.1.name)
  let primaryKey ← b.1.primaryKey.mapM (schema.requireColumn b.1.name)
  let indexes ← b.2.mapM schema.requireIndexSpec
  return ({ name := name, columns := columns, primaryKey := primaryKey }, indexes)

def initializeBatches : List Migrations.Batch → Catalogue → Catalogue × Except InitError Unit
  | [], c => (c, .ok ())
  | b :: bs, c =>
    match schema.requireBatch b with
    | .error text => (c, .error (.invalidParameterName text))
    | .ok b' =>
      match Catalogue.run (Catalogue.script [b']) c with
      | (c, .error e) => (c, .error (.sqlite e))
      | (c, .ok ()) => initializeBatches bs c

def initializeDatabase : Catalogue → Catalogue × Except InitError Unit :=
  schema.initializeBatches Migrations.batches

/-- The statements that a run issues if none of them fails. -/
def statements : List Migrations.Batch → List CatalogueEntry
  | [] => []
  | b :: bs =>
    match schema.requireBatch b with
    | .error _ => []
    | .ok b' => Catalogue.script [b'] ++ statements bs

/-- The processes that have a database initialized, at any time and killed at any time. -/
abbrev Initialized : Pool Catalogue Catalogue.ScriptRun → Prop :=
  Catalogue.ScriptRun.Reachable (schema.statements Migrations.batches)

end

/-! ## The names that come of it -/

section

variable [KeyedHash] (key : Bytes)

def opaqueColumn (table : String) (c : ColumnSpec) : ColumnSpec :=
  { c with name := deriveName key (columnDomain table) c.name }

def opaqueIndex (i : IndexSpec) : IndexSpec :=
  { i with
    name := deriveName key "idx" i.name
    table := deriveName key "table" i.table
    columns := i.columns.map (deriveName key (columnDomain i.table)) }

def opaqueBatch (b : Migrations.Batch) : Migrations.Batch :=
  ({ name := deriveName key "table" b.1.name
     columns := b.1.columns.map (opaqueColumn key b.1.name)
     primaryKey := b.1.primaryKey.map (deriveName key (columnDomain b.1.name)) },
    b.2.map (opaqueIndex key))

/-- The catalogue when all is done. -/
def migrated : Catalogue := Catalogue.script (Migrations.batches.map (opaqueBatch key))

end

/-- What a batch names is in the list of the schema, and its own columns are what its indices are
    on. -/
structure Listed (defs : List TableDef) (b : Migrations.Batch) : Prop where
  table : b.1.name ∈ tableNames defs
  columns : ∀ c ∈ b.1.columnNames, (b.1.name, c) ∈ columnNames defs
  distinct : b.1.columnNames.Nodup
  primaryKey : b.1.primaryKey ⊆ b.1.columnNames
  indexes : ∀ i ∈ b.2, i.name ∈ indexNames defs ∧ i.table = b.1.name ∧ i.columns ⊆ b.1.columnNames

instance (defs : List TableDef) (b : Migrations.Batch) : Decidable (Listed defs b) :=
  decidable_of_iff
    (b.1.name ∈ tableNames defs ∧ (∀ c ∈ b.1.columnNames, (b.1.name, c) ∈ columnNames defs) ∧
      b.1.columnNames.Nodup ∧ b.1.primaryKey ⊆ b.1.columnNames ∧
      ∀ i ∈ b.2, i.name ∈ indexNames defs ∧ i.table = b.1.name ∧ i.columns ⊆ b.1.columnNames)
    ⟨fun ⟨h₁, h₂, h₃, h₄, h₅⟩ => ⟨h₁, h₂, h₃, h₄, h₅⟩,
      fun h => ⟨h.table, h.columns, h.distinct, h.primaryKey, h.indexes⟩⟩

theorem listed_batches : ∀ b ∈ Migrations.batches, Listed logicalTables b := by decide +kernel

section

variable [KeyedHash] {key : Bytes} {defs : List TableDef}

theorem requireTable_new {a : String} (h : a ∈ tableNames defs) :
    (new key defs).requireTable a = .ok (deriveName key "table" a) := by
  simp [requireTable, table_new, h]

theorem requireColumn_new {t c : String} (h : (t, c) ∈ columnNames defs) :
    (new key defs).requireColumn t c = .ok (deriveName key (columnDomain t) c) := by
  simp [requireColumn, column_new, h]

theorem requireIndex_new {i : String} (h : i ∈ indexNames defs) :
    (new key defs).requireIndex i = .ok (deriveName key "idx" i) := by
  simp [requireIndex, index_new, h]

theorem requireBatch_new {b : Migrations.Batch} (h : Listed defs b) :
    (new key defs).requireBatch b = .ok (opaqueBatch key b) := by
  have hcolumns : b.1.columns.mapM ((new key defs).requireColumnSpec b.1.name) =
      .ok (b.1.columns.map (opaqueColumn key b.1.name)) := by
    apply mapM_of_ok
    intro c hc
    have hlisted := h.columns c.name (List.mem_map_of_mem hc)
    simp [requireColumnSpec, requireColumn_new hlisted, opaqueColumn, bind, Except.bind, pure,
      Except.pure]
  have hprimary : b.1.primaryKey.mapM ((new key defs).requireColumn b.1.name) =
      .ok (b.1.primaryKey.map (deriveName key (columnDomain b.1.name))) :=
    mapM_of_ok fun c hc => requireColumn_new (h.columns c (h.primaryKey hc))
  have hindexes : b.2.mapM (new key defs).requireIndexSpec =
      .ok (b.2.map (opaqueIndex key)) := by
    apply mapM_of_ok
    intro i hi
    obtain ⟨hname, htable, hcols⟩ := h.indexes i hi
    have hown : i.columns.mapM ((new key defs).requireColumn i.table) =
        .ok (i.columns.map (deriveName key (columnDomain i.table))) :=
      mapM_of_ok fun c hc => requireColumn_new (htable ▸ h.columns c (hcols hc))
    simp [requireIndexSpec, requireIndex_new hname, requireTable_new (htable ▸ h.table), hown,
      opaqueIndex, bind, Except.bind, pure, Except.pure]
  simp [requireBatch, requireTable_new h.table, hcolumns, hprimary, hindexes, opaqueBatch, bind,
    Except.bind, pure, Except.pure]

theorem statements_new {bs : List Migrations.Batch} (h : ∀ b ∈ bs, Listed defs b) :
    (new key defs).statements bs = Catalogue.script (bs.map (opaqueBatch key)) := by
  induction bs with
  | nil => rfl
  | cons b bs ih =>
    rw [List.map_cons, Catalogue.script_cons, statements, requireBatch_new (h b (by simp)),
      ih fun b hb => h b (by simp [hb])]

theorem initializeBatches_new {bs : List Migrations.Batch} (h : ∀ b ∈ bs, Listed defs b)
    {c c' : Catalogue} (hrun : Catalogue.run (Catalogue.script (bs.map (opaqueBatch key))) c =
      (c', .ok ())) : (new key defs).initializeBatches bs c = (c', .ok ()) := by
  induction bs generalizing c with
  | nil =>
    obtain rfl : c = c' := congrArg Prod.fst hrun
    rfl
  | cons b bs ih =>
    rw [List.map_cons, Catalogue.script_cons] at hrun
    obtain ⟨c₁, hfirst, hrest⟩ := Catalogue.run_append_eq_ok hrun
    simp only [initializeBatches, requireBatch_new (h b (by simp)), hfirst]
    exact ih (fun b hb => h b (by simp [hb])) hrest

/-! ## No two of them are the same -/

/-- The kind of an entry with its logical name. -/
def labels (bs : List Migrations.Batch) : List (Bool × String) :=
  bs.flatMap fun b => (true, b.1.name) :: b.2.map fun i => (false, i.name)

omit [KeyedHash] in
theorem nodup_labels : (labels Migrations.batches).Nodup := by decide +kernel

def opaqueLabel (key : Bytes) (l : Bool × String) : String :=
  deriveName key (if l.1 then "table" else "idx") l.2

theorem names_disguised (bs : List Migrations.Batch) :
    (Catalogue.script (bs.map (opaqueBatch key))).map CatalogueEntry.name =
      (labels bs).map (opaqueLabel key) := by
  induction bs with
  | nil => rfl
  | cons b bs ih =>
    rw [List.map_cons, Catalogue.script_cons, List.map_append, ih]
    simp [Catalogue.script, labels, opaqueBatch, opaqueLabel, CatalogueEntry.name, opaqueIndex,
      Function.comp_def]

theorem opaqueLabel_injOn (hu : (new key defs).Unambiguous defs) {bs : List Migrations.Batch}
    (h : ∀ b ∈ bs, Listed defs b) {l l' : Bool × String} (hl : l ∈ labels bs)
    (hl' : l' ∈ labels bs) (heq : opaqueLabel key l = opaqueLabel key l') : l = l' := by
  have hlisted : ∀ l ∈ labels bs, l.2 ∈ if l.1 then tableNames defs else indexNames defs := by
    intro l hl
    obtain ⟨b, hb, hmem⟩ := List.mem_flatMap.1 hl
    obtain rfl | hmem := List.mem_cons.1 hmem
    · exact (h b hb).table
    · obtain ⟨i, hi, rfl⟩ := List.mem_map.1 hmem
      exact ((h b hb).indexes i hi).1
  have hkind : kindOf "table" ≠ kindOf "idx" := by decide
  have hmem := hlisted l hl
  have hmem' := hlisted l' hl'
  obtain ⟨kind, a⟩ := l
  obtain ⟨kind', a'⟩ := l'
  cases kind <;> cases kind' <;>
    simp only [Bool.false_eq_true, if_true, if_false] at hmem hmem'
  · rw [hu.indexes a a' _ (index_eq_some.2 ⟨hmem, rfl⟩) (index_eq_some.2 ⟨hmem', heq.symm⟩)]
  · exact absurd (deriveName_eq_iff.1 heq).1.symm hkind
  · exact absurd (deriveName_eq_iff.1 heq).1 hkind
  · rw [hu.tables a a' _ (table_eq_some.2 ⟨hmem, rfl⟩) (table_eq_some.2 ⟨hmem', heq.symm⟩)]

theorem columnNames_disguised (b : Migrations.Batch) :
    (opaqueBatch key b).1.columnNames =
      b.1.columnNames.map (deriveName key (columnDomain b.1.name)) := by
  simp [opaqueBatch, TableSpec.columnNames, opaqueColumn, Function.comp_def]

theorem ordered_disguised (hu : (new key defs).Unambiguous defs) {bs : List Migrations.Batch}
    (h : ∀ b ∈ bs, Listed defs b) (hlabels : (labels bs).Nodup) :
    Catalogue.Ordered (Catalogue.script (bs.map (opaqueBatch key))) := by
  apply Catalogue.ordered_script
  · rw [names_disguised]
    exact hlabels.map_on fun l hl l' hl' heq => opaqueLabel_injOn hu h hl hl' heq
  · intro b' hb'
    obtain ⟨b, hb, rfl⟩ := List.mem_map.1 hb'
    rw [columnNames_disguised]
    apply (h b hb).distinct.map_on
    intro c hc c' hc' heq
    exact (hu.columns b.1.name c b.1.name c' _ (column_eq_some.2 ⟨(h b hb).columns c hc, rfl⟩)
      (column_eq_some.2 ⟨(h b hb).columns c' hc', heq.symm⟩)).2
  · intro b' hb' i' hi'
    obtain ⟨b, hb, rfl⟩ := List.mem_map.1 hb'
    obtain ⟨i, hi, rfl⟩ := List.mem_map.1 hi'
    obtain ⟨-, htable, hcols⟩ := (h b hb).indexes i hi
    rw [columnNames_disguised]
    refine ⟨by simp [opaqueIndex, opaqueBatch, htable], ?_⟩
    rw [opaqueIndex, htable]
    exact List.map_subset _ hcols

omit [KeyedHash] in
/-- The two lists of the source name the same objects in the same order. -/
theorem layout_eq : Migrations.batches.map (fun b => (b.1.name, b.1.columnNames, b.2.map (·.name))) =
    logicalTables.map fun d => (d.name.val, d.columns.map (·.val), d.indexes.map (·.val)) := by
  decide +kernel

/-- What the schema has a name for is in the finished catalogue. -/
structure Provided (schema : OpaqueSchema) (c : Catalogue) (d : TableDef) : Prop where
  table : ∃ a t, schema.table d.name.val = some a ∧ c.table? a = some t ∧
    t.columnNames.map some = d.columns.map fun col => schema.column d.name.val col.val
  indexes : ∀ i ∈ d.indexes, ∃ x, schema.index i.val = some x ∧ c.hasIndex x = true

theorem provided_migrated (hu : (new key logicalTables).Unambiguous logicalTables) {d : TableDef}
    (hd : d ∈ logicalTables) : Provided (new key logicalTables) (migrated key) d := by
  have hlabel := List.mem_map_of_mem (f := fun d : TableDef =>
    (d.name.val, d.columns.map (·.val), d.indexes.map (·.val))) hd
  rw [← layout_eq] at hlabel
  obtain ⟨b, hb, heq⟩ := List.mem_map.1 hlabel
  obtain ⟨hname, hrest⟩ := Prod.mk.inj heq
  obtain ⟨hcolumns, hindexes⟩ := Prod.mk.inj hrest
  have hlisted := listed_batches b hb
  have hordered : Catalogue.Ordered (migrated key) := ordered_disguised hu listed_batches nodup_labels
  have hentry : ∀ e ∈ Catalogue.script [opaqueBatch key b], e ∈ migrated key := by
    intro e he
    simp only [migrated, Catalogue.script, List.mem_flatMap, List.mem_singleton] at he ⊢
    obtain ⟨b', rfl, he⟩ := he
    exact ⟨opaqueBatch key b, List.mem_map_of_mem hb, he⟩
  constructor
  case table =>
    refine ⟨deriveName key "table" d.name.val, (opaqueBatch key b).1, ?_, ?_, ?_⟩
    · exact table_eq_some.2 ⟨hname ▸ hlisted.table, rfl⟩
    · have hfound := Catalogue.table?_eq_some hordered
        (hentry (.table (opaqueBatch key b).1) (by simp [Catalogue.script]))
      rwa [show (opaqueBatch key b).1.name = deriveName key "table" d.name.val from
        hname ▸ rfl] at hfound
    · rw [columnNames_disguised, hcolumns, List.map_map, List.map_map]
      apply List.map_congr_left
      intro col hcol
      have hmem : (b.1.name, col.val) ∈ columnNames logicalTables := by
        apply hlisted.columns
        rw [hcolumns]
        exact List.mem_map_of_mem hcol
      simp only [Function.comp_apply, hname] at hmem ⊢
      exact (column_eq_some.2 ⟨hmem, rfl⟩).symm
  case indexes =>
    intro i hi
    have hmem : i.val ∈ b.2.map (·.name) := hindexes ▸ List.mem_map_of_mem hi
    obtain ⟨spec, hspec, hval⟩ := List.mem_map.1 hmem
    refine ⟨deriveName key "idx" i.val, ?_, ?_⟩
    · exact index_eq_some.2 ⟨hval ▸ (hlisted.indexes spec hspec).1, rfl⟩
    · apply Catalogue.hasIndex_iff.2
      refine ⟨opaqueIndex key spec, hentry _ ?_, by simp [opaqueIndex, hval]⟩
      simp only [Catalogue.script, opaqueBatch, List.flatMap_cons, List.flatMap_nil,
        List.append_nil]
      exact List.mem_cons_of_mem _ (List.mem_map_of_mem (List.mem_map_of_mem hspec))

end

end OpaqueSchema

namespace SampleMigrations

/-- Keyed BLAKE3 of what is hashed for the names of the schema. -/
def digests : List ((String × String) × ℕ) :=
  [(("table", "volume"), 0xc4c91e96430e7c9386dd5b433c9bf2d2151b8a5472daeffa54a0853f9f4b613b),
    (("table", "inodes"), 0x2d0c3126167ddbf840ef1c0dcd345494bb05b82338130f742040853a36be339b),
    (("table", "blocks"), 0x111a158a8435300a20635f4659c195be69c587f3fa22693a2e2b0f79139875f7),
    (("table", "manifests"), 0x42b9273be37e6bd995e8f653be4265155a9501494f5e0e6f3790fdbcf138b4b8),
    (("table", "snapshots"), 0xf45a24107ce4f82dc697bc29eae18da068db82220ba62474f7af03f9f516c644),
    (("table", "policies"), 0xc00d639e8ee623837179449fc5cc933dd3dd5776516503f2bd6a1fc58a42a32f),
    (("table", "path_policies"),
      0x68bc89db193640fd74987bebba6f1e0c2d3d7f81d2ea7875a8b97a1c491469e3),
    (("table", "users"), 0x3957ef39c76ff60279fef67a8b6e7b9e4b7102e76a52f01e71538a6ad0bba360),
    (("table", "audit_log"), 0x8c52fd29d7a9284f6d985e15c45a702891ac02d37d23c6a076b3fb84f37362e5),
    (("table", "deadman"), 0x9e4b3912b731994e76742281528a59b955db820092c61012ca5afaca1e1778b1),
    (("table", "shares"), 0x59527666b7b525fda1a17eca399bf38f58d3a690262f7306286a4c417a4066fe),
    (("table", "invites"), 0x35df28240d4be0be16d9b2faeaae5041ff1a51082a0fcc263ff32226f526e1b0),
    (("col:volume", "volume_id"),
      0x2724967dc71906ce9443d02e570279960b3f11cacc73b0312ea8ca9ce5dbb56a),
    (("col:volume", "data"), 0x371c47a716d7362b328991059238096a5a8c60b7e3b136fc112d5289466da609),
    (("col:volume", "created_at"),
      0x1826584bf6a0c84e1b08f4a6325b0cafceab2e003735fa8b4915754cc79b6800),
    (("col:volume", "updated_at"),
      0xe6db892ac62fec01971715cb8c35acb536012aab1ca182fd21d952e21e5209c0),
    (("col:inodes", "ino"), 0x5fcf427e69b1e0fdcb76c49b08fcc40e6a1889a0572c68227d117786fedf189a),
    (("col:inodes", "parent"), 0xe585935ae704eb2399d2aebc3419763316850d2e4da75fd4f9cc8160efed70a0),
    (("col:inodes", "name_hash"),
      0xececf30f84c278ef204370627c6f311c794196d6e423b61fcf7d68294a1ac2c0),
    (("col:inodes", "data"), 0x7d3b9d41387d2eb57450be97078adc57acd96b1eb7cdbe824d94eb138a757776),
    (("col:inodes", "version"), 0xf794c0e87b84d605fda94141ac11acc75117df9f32bb94b156d76fdf79e1e834),
    (("col:blocks", "rid"), 0xc08c503a6f0015d8a17679ec6d95df4ceda7831f7b16b7b40a30f26e349322b3),
    (("col:blocks", "content_hash"),
      0x018a407e51f42b079a51d4b1d9fae45041c28814e80d48d611fb1f0109fe03e5),
    (("col:blocks", "message_id"),
      0xa275d13b8258d34f093e42bd46cad0fefe0df2f4abb1c5a773204a78c6b9dd2e),
    (("col:blocks", "encrypted_size"),
      0xc67bb510ba4a70e5517c5a45063a8421713c175f92da376b6a8425eb2a378fda),
    (("col:blocks", "epoch"), 0xdf37e87828933e85bc64f130b4c1a2bbab80c709d5c2a67b9e2ec62075526830),
    (("col:blocks", "ref_count"),
      0x9d35736157a11d54ed2fa0a083d8bbc9b8845f7a338361c6d6356450cbaa3abd),
    (("col:blocks", "compressed"),
      0xd3bf401e376072d5e1754c6af4476ec82b9737703c849a50038e380802094c68),
    (("col:manifests", "ino"), 0xe484d79698e40bb9ae687f9d7c9968316d161dfbdae5c0cabb949f22a8707520),
    (("col:manifests", "version"),
      0x7985871e65ced43b4a4b72103daa1984340eea46690cb233787076969692eddd),
    (("col:manifests", "data"), 0x72f659624a4008da64d1875a656e4d7cbe476a31eac5b80c3174ded45880aa42),
    (("col:manifests", "created_at"),
      0xd3cd5094de5fca1fb40522c09a8a6d53934c678a42ccd5554d02ae17549bdf98),
    (("col:snapshots", "sid"), 0x7e830ad50c38aba178ae3bdf3de48c2a0134158f74d0e482c245c278f1d50f15),
    (("col:snapshots", "timestamp"),
      0x3ecdccaaf7f9a8b8ab1247cc55cbf6b203b575473caefdb1e950b7b01c4cceca),
    (("col:snapshots", "data"), 0x1c79cb7a0ede809bb497e847eedce30162ee0ce029a386a6d3d7a86a70b006c0),
    (("col:snapshots", "ino"), 0xf6bbf7fc2534386d816059b57aee7aec3e7c3d8e07fb73b089612b6005274a32),
    (("col:policies", "pid"), 0x7b69720cd29ac615deec392b5792c14439535a9177f9bf5477048c8e0b64c0d9),
    (("col:policies", "data"), 0x5477c88505a42a794e0ed92475b6b90114a9d45989fca2482b096c03a8241c2d),
    (("col:path_policies", "path_pattern"),
      0x1e633238fd91256f23ecc247ef26e43d4d3226881fb3310a7e4ee3405876417f),
    (("col:path_policies", "pid"),
      0xcaa3dbcbf8a669b2e0b4358a0e461642e990bdf12ccb1c08c38e293c08abd967),
    (("col:path_policies", "priority"),
      0x9f1ffa38dc86d743ea2886dacf4ad2a1149638f09b3553aabbc84c33e5b21996),
    (("col:users", "uid"), 0xc260df023e8d5ad8d337a389f8e2931d64ccd21cebfe46b219b59bf95aa63b86),
    (("col:users", "data"), 0xace25dd5a470906008c68d52771c2c26ee8ff1dd1383ab3a7d6659d5505333c0),
    (("col:users", "active"), 0x27928e559c4f2a5956c5fc5e4fc9cd15999c4f941700eaca1ad6b98d0db2360e),
    (("col:audit_log", "id"), 0x2c73656b6ca800776826cfe104d493826c489dc78885e7ca0c9d4554a9ddd3c5),
    (("col:audit_log", "timestamp"),
      0x357dc253c40013127ba15bc769608b420300849193c647410a107deb2f3af8f8),
    (("col:audit_log", "uid"), 0x2090877f4ddef23b809ccb46f401a98c00133f39d365fbf834b5ef6cbfafe470),
    (("col:audit_log", "action"),
      0x985ea4763a53d3c7e055c47e6ac61d7af850c52341392f3146b1abae6e1195f1),
    (("col:audit_log", "details"),
      0xbb803241005865d65d2622e8f861952042a77f68f5c8ca0c4ce1fdfb77bbe679),
    (("col:deadman", "vid"), 0x7cd1d3fe11e5d081ae7b75e7678a3a7a96524c8b46aa775ab23d21d675ee20e4),
    (("col:deadman", "data"), 0x0382a82c715712883153bab8054c51cd09f00338b9910f95ce0f1b8814e50235),
    (("col:deadman", "armed"), 0x6a51556c3c73837930ab1a6357fa566ce204958851bc762d263f8cbc4634b20e),
    (("col:deadman", "last_check"),
      0x20a1126a9a201d563d648ad4034486a9715f22da1c54ef0a7268601dab68c5b6),
    (("col:shares", "sid"), 0x1b2b013018a99c44cee66eeeedda580902ce07cad94a21b2863f220885df5f7b),
    (("col:shares", "volume_id"),
      0xadf3c9eebde122ef89e9755c632829c7c67a60031d774d928eaa2d0d4bd2d663),
    (("col:shares", "uid"), 0xf44cea3bc814f8736f106edb5cbcc966f2191129afd1c24f455d94b7bfad4f6e),
    (("col:shares", "data"), 0x3b3bc3ff0d38a47160423ef642a0de1eb97c656a78850a7786a394f98fb469a4),
    (("col:shares", "active"), 0xc5cc886389ca3743ccb47d3aaeb7fc0e138dfff53bc635e2883587b35dfc12b9),
    (("col:invites", "invite_id"),
      0x211fead023bcb7c6427c56e8de4a72a0e4573fb1d9df1c99340e86c3264f6a8b),
    (("col:invites", "volume_id"),
      0x4ccca98049980b51296249e6b56cc2e7000adcea3599fdf23c3dee7a3b02e3c7),
    (("col:invites", "data"), 0x62c322a1c70cf811fadda066bd99e6b010fc6b804801d3c48bc9928a61de7841),
    (("col:invites", "active"), 0x6be0e05d85167a951bd834b0ddd9ff3d63a60c9a61c12e1ecf16c6c234b4ddaf),
    (("idx", "inodes_parent"), 0x9b2825234439d5e5021cc2e9be0ae906eadcde6a3ed6ab4cc4ecf09b244e1b7c),
    (("idx", "inodes_parent_name"),
      0xdc900449e146e524bddb23c1ffcfecb9e92cb0b9c74af74eeae46497004926c2),
    (("idx", "blocks_content_hash"),
      0x299aebf1ef6b88b866d1c6bad22b6bd0980b1c5a6f1a104981e6210708696187),
    (("idx", "blocks_message_id"),
      0xa65d6038c50b0fba864922efa3659363c7e5209861316b3aa72ec2c5fe8bc33b),
    (("idx", "snapshots_ts"), 0x96b3783e1370ddcd7632eaa3298355b5ac097b1bc33225cb08f613d4f146f3e1),
    (("idx", "snapshots_ino"), 0xc907899cd8d88029df39df13058e44c806778f30ed933497afdc2c06fd4bd5fa),
    (("idx", "path_policies_pattern"),
      0x413ccf79718dd314b21474a7b0f1c746f90e07953147d8538cd3d76b3bb9b5e5),
    (("idx", "audit_ts"), 0xc1f4f1a918eff77b4411f9cf90d5a4537f51ab4822312fcf586a426aa8a4fefa),
    (("idx", "shares_volume"), 0x2ee12cdea2e3843fcc0724a3d953daf2a9f5796ecdfa47e99312bbec3b074c5c),
    (("idx", "invites_volume"), 0x45801cb03dee09effbd72dfa9544ccaa3c153ffc684bcb3d3c977627f317fb7d)]

def hash (key data : Bytes) : Bytes :=
  match digests.find? fun d => opaqueInput d.1.1 d.1.2 = data with
  | some d => if key = SampleSchema.key then Sample.digestBytes d.2 else List.replicate 32 0
  | none => List.replicate 32 0

scoped instance : KeyedHash where
  keyedHash := hash
  length_keyedHash := by
    intro key data
    unfold hash
    split
    · split_ifs <;> simp [Sample.digestBytes]
    · simp

/-- The names of the schema with their domains. No two names and no two shortened digests are the same. -/
theorem digests_listed : digests.map (·.1) =
      (OpaqueSchema.tableNames logicalTables).map (fun a => ("table", a)) ++
      (OpaqueSchema.columnNames logicalTables).map
        (fun p => (OpaqueSchema.columnDomain p.1, p.2)) ++
      (OpaqueSchema.indexNames logicalTables).map (fun i => ("idx", i)) ∧
    (digests.map (·.1)).Nodup ∧
    (digests.map fun d => (Sample.digestBytes d.2).take 8).Nodup := by
  decide +kernel

theorem digests_short {d : (String × String) × ℕ} (hd : d ∈ digests) :
    (utf8 d.1.1).length < 2 ^ 64 ∧ (utf8 d.1.2).length < 2 ^ 64 := by
  have htable : (utf8 "table").length < 2 ^ 64 := by decide
  have hidx : (utf8 "idx").length < 2 ^ 64 := by decide
  have hmem : d.1 ∈ digests.map (·.1) := List.mem_map_of_mem hd
  rw [digests_listed.1, List.mem_append, List.mem_append] at hmem
  rcases hmem with (hmem | hmem) | hmem
  · obtain ⟨a, ha, heq⟩ := List.mem_map.1 hmem
    exact heq ▸ ⟨htable, OpaqueSchema.tableNames_lt ha⟩
  · obtain ⟨p, hp, heq⟩ := List.mem_map.1 hmem
    exact heq ▸ OpaqueSchema.columnNames_lt hp
  · obtain ⟨i, hi, heq⟩ := List.mem_map.1 hmem
    exact heq ▸ ⟨hidx, OpaqueSchema.indexNames_lt hi⟩

theorem hash_of_mem {d : (String × String) × ℕ} (hd : d ∈ digests) :
    hash SampleSchema.key (opaqueInput d.1.1 d.1.2) = Sample.digestBytes d.2 := by
  have hfind : digests.find? (fun d' => opaqueInput d'.1.1 d'.1.2 = opaqueInput d.1.1 d.1.2) =
      some d := by
    cases h : digests.find? fun d' => opaqueInput d'.1.1 d'.1.2 = opaqueInput d.1.1 d.1.2 with
    | none => simpa using List.find?_eq_none.1 h d hd
    | some d' =>
      have hmem := List.mem_of_find?_eq_some h
      have heq : opaqueInput d'.1.1 d'.1.2 = opaqueInput d.1.1 d.1.2 := by
        simpa using List.find?_some h
      obtain ⟨hdomain, hname⟩ := opaqueInput_inj (digests_short hmem).1
        (digests_short hmem).2 (digests_short hd).1 (digests_short hd).2 heq
      have hsame : d' = d :=
        List.inj_on_of_nodup_map digests_listed.2.1 hmem hd (Prod.ext hdomain hname)
      rw [hsame]
  simp [hash, hfind]

theorem hashedInputs_eq :
    OpaqueSchema.hashedInputs logicalTables = digests.map fun d => opaqueInput d.1.1 d.1.2 := by
  have h := congrArg (List.map fun p : String × String => opaqueInput p.1 p.2) digests_listed.1
  simp only [List.map_map, List.map_append] at h
  exact h.symm

theorem truncationInjective :
    TruncationInjective SampleSchema.key (OpaqueSchema.hashedInputs logicalTables) := by
  intro x hx y hy heq
  rw [hashedInputs_eq] at hx hy
  obtain ⟨d, hd, rfl⟩ := List.mem_map.1 hx
  obtain ⟨d', hd', rfl⟩ := List.mem_map.1 hy
  simp only [keyedHash, hash_of_mem hd, hash_of_mem hd'] at heq
  rw [List.inj_on_of_nodup_map digests_listed.2.2 hd hd' heq]

end SampleMigrations

end TgCryptFs
