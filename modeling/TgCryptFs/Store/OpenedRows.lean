import TgCryptFs.Store.SealedRows

set_option autoImplicit false

/-!
# Rows that open

A row with the record that its blob opens to, under what the columns of the row name.
-/
namespace TgCryptFs
open Library

variable [Primitives] {α Row K : Type} [Postcard α] [RecordRow Row α] [DecidableEq K]
  {metaKey : Bytes}

def Opens (metaKey : Bytes) (row : Row) (record : α) : Prop :=
  openRecord metaKey (RecordRow.data row) (RecordRow.identity row).aad = .ok record

theorem Opens.unique {row : Row} {r r' : α} (h : Opens metaKey row r) (h' : Opens metaKey row r') :
    r = r' := Except.ok.inj (h.symm.trans h')

theorem Opens.of_seal {row : Row} {record : α} {nonce : Aead.Nonce}
    (h : sealRecord metaKey nonce (RecordRow.identity row).aad record = some (RecordRow.data row)) :
    Opens metaKey row record := openRecord_sealRecord h

/-- Every row opens, to a record that stands in `P` to it. -/
def AllOpen (metaKey : Bytes) (P : Row → α → Prop) (rows : List Row) : Prop :=
  ∀ row ∈ rows, ∃ record, Opens metaKey row record ∧ P row record

namespace AllOpen

variable {P : Row → α → Prop} {rows rows' : List Row}

omit [DecidableEq K] in
theorem nil : AllOpen metaKey P ([] : List Row) := fun _ hrow => by cases hrow

omit [DecidableEq K] in
theorem of_subset (h : AllOpen metaKey P rows) (hrows : rows' ⊆ rows) : AllOpen metaKey P rows' :=
  fun row hrow => h row (hrows hrow)

/-- INSERT OR REPLACE of a row that opens. -/
theorem put {key : Row → K} {t : Table key key} (h : AllOpen metaKey P t.rows) {row : Row}
    {record : α} (hopen : Opens metaKey row record) (hP : P row record) :
    AllOpen metaKey P (t.put row).rows := by
  intro x hx
  rcases Table.mem_put hx with rfl | hx
  · exact ⟨record, hopen, hP⟩
  · exact h x hx

theorem putSealed {key : Row → K} {t : Table key key} (h : AllOpen metaKey P t.rows)
    {nonce : Aead.Nonce} (i : Identity) {record : α} {row : Bytes → Row}
    (hrow : ∀ d, RecordRow.identity (row d) = i ∧ RecordRow.data (row d) = d)
    (hP : ∀ d, P (row d) record) :
    AllOpen metaKey P (orElse t (putSealed metaKey nonce i.aad record row t)).rows := by
  unfold TgCryptFs.putSealed
  cases hseal : sealRecord metaKey nonce i.aad record with
  | none => exact h
  | some data =>
    have hsealed : sealRecord metaKey nonce (RecordRow.identity (row data)).aad record =
        some (RecordRow.data (row data)) := by
      rw [(hrow data).1, (hrow data).2]
      exact hseal
    exact h.put (.of_seal hsealed) (hP data)

/-- UPDATE of columns that neither the blob nor the identity is in. -/
theorem modify {key : Row → K} {t : Table key key} (h : AllOpen metaKey P t.rows) (k : K)
    (f : Row → Row) (hf : ∀ r, key (f r) = key r)
    (hsame : ∀ r : Row, RecordRow.identity (f r) = RecordRow.identity r ∧
      RecordRow.data (f r) = RecordRow.data r)
    (hP : ∀ row record, t.find k = some row → Opens metaKey row record → P row record →
      P (f row) record) :
    AllOpen metaKey P (t.modify k f hf).rows := by
  intro x hx
  obtain ⟨row, hrow, rfl⟩ := List.mem_map.1 hx
  obtain ⟨record, hopen, hrec⟩ := h row hrow
  split
  · rename_i hkey
    refine ⟨record, ?_, hP row record (hkey ▸ Table.find_of_mem hrow) hopen hrec⟩
    rw [Opens, (hsame row).1, (hsame row).2]
    exact hopen
  · exact ⟨record, hopen, hrec⟩

/-- The UPDATE keeps what the rows stand for exactly if the row it changes does. -/
theorem modify_iff {key : Row → K} {t : Table key key} (h : AllOpen metaKey P t.rows) (k : K)
    (f : Row → Row) {hf : ∀ r, key (f r) = key r}
    (hsame : ∀ r : Row, RecordRow.identity (f r) = RecordRow.identity r ∧
      RecordRow.data (f r) = RecordRow.data r) :
    AllOpen metaKey P (t.modify k f hf).rows ↔
      ∀ row record, t.find k = some row → Opens metaKey row record → P (f row) record := by
  constructor
  · intro hall row record hrow hopen
    have hfind : (t.modify k f hf).find k = some (f row) := by
      rw [Table.find_modify, Function.update_self, hrow, Option.map_some]
    obtain ⟨read, hread, hP⟩ := hall (f row) (Table.mem_of_find hfind)
    rw [Opens, (hsame row).1, (hsame row).2] at hread
    rwa [hopen.unique hread]
  · intro hrow
    exact h.modify k f hf hsame fun row record hfind hopen _ => hrow row record hfind hopen

end AllOpen

theorem openRow_find_iff {key : Row → K} {t : Table key key} (data : Row → Bytes) (aad : K → String)
    (hdata : ∀ row, data row = RecordRow.data row)
    (haad : ∀ row, aad (key row) = (RecordRow.identity row).aad) {k : K} {record : α} :
    openRow metaKey data (fun _ => aad k) (t.find k) = .ok (some record) ↔
      ∃ row, t.find k = some row ∧ Opens metaKey row record := by
  cases hfind : t.find k with
  | none =>
    rw [openRow]
    constructor
    · intro h
      cases h
    · rintro ⟨row, hrow, -⟩
      cases hrow
  | some row =>
    have hopens : Opens metaKey row record ↔ openRecord metaKey (data row) (aad k) = .ok record := by
      rw [Opens, hdata, ← haad, Table.key_of_find hfind]
    rw [openRow]
    constructor
    · intro h
      split at h
      · cases h
      · rename_i read hread
        cases h
        exact ⟨row, rfl, hopens.2 hread⟩
    · rintro ⟨_, hrow, hopen⟩
      cases hrow
      rw [hopens.1 hopen]

omit [DecidableEq K] in
/-- A listing of rows that open: their records, in order. -/
theorem openRows_of_opens (data : Row → Bytes) (aad : Row → String) {rows : List Row}
    (hdata : ∀ row, data row = RecordRow.data row)
    (haad : ∀ row, aad row = (RecordRow.identity row).aad)
    (h : ∀ row ∈ rows, ∃ record : α, Opens metaKey row record) :
    ∃ records : List α, openRows metaKey data aad rows = .ok records ∧
      List.Forall₂ (Opens metaKey) rows records := by
  induction rows with
  | nil => exact ⟨[], rfl, .nil⟩
  | cons row rows ih =>
    obtain ⟨record, hrecord⟩ := h row List.mem_cons_self
    obtain ⟨records, hrecords, hall⟩ := ih fun x hx => h x (List.mem_cons_of_mem row hx)
    refine ⟨record :: records, ?_, .cons hrecord hall⟩
    have hopen : openRecord metaKey (data row) (aad row) = .ok record := by
      rw [hdata, haad]
      exact hrecord
    rw [openRows, hopen, hrecords]

omit [DecidableEq K] in
theorem mem_of_opens {rows : List Row} {records : List α}
    (h : List.Forall₂ (Opens metaKey) rows records) {record : α} :
    record ∈ records ↔ ∃ row ∈ rows, Opens metaKey row record := by
  induction h with
  | nil => simp
  | cons hopen _ ih =>
    rename_i row r rows records _
    simp only [List.mem_cons, ih, exists_eq_or_imp]
    refine or_congr_left ?_
    constructor
    · rintro rfl
      exact hopen
    · exact fun h => h.unique hopen

omit [DecidableEq K] in
theorem map_of_opens {N : Type} {key : Row → N} {name : α → N} {rows : List Row} {records : List α}
    (h : List.Forall₂ (Opens metaKey) rows records)
    (hname : ∀ row ∈ rows, ∀ record, Opens metaKey row record → name record = key row) :
    records.map name = rows.map key := by
  induction h with
  | nil => rfl
  | cons hopen _ ih =>
    rw [List.map_cons, List.map_cons, hname _ List.mem_cons_self _ hopen,
      ih fun row hrow => hname row (List.mem_cons_of_mem _ hrow)]

/-- The listing of the rows that `p` selects names exactly these. -/
theorem AllOpen.listing {key : Row → K} {t : Table key key} {name : α → K}
    (h : AllOpen metaKey (fun row record => name record = key row) t.rows) (data : Row → Bytes)
    (aad : Row → String) (hdata : ∀ row, data row = RecordRow.data row)
    (haad : ∀ row, aad row = (RecordRow.identity row).aad) (p : Row → Bool) :
    ∃ listed, openRows metaKey data aad (t.rows.filter p) = .ok listed ∧
      ∀ row ∈ t.rows, key row ∈ listed.map name ↔ p row = true := by
  have hopen : ∀ row ∈ t.rows.filter p, ∃ record : α, Opens metaKey row record := by
    intro row hrow
    obtain ⟨record, hrecord, -⟩ := h row (List.mem_filter.1 hrow).1
    exact ⟨record, hrecord⟩
  obtain ⟨listed, hlisted, hall⟩ := openRows_of_opens data aad hdata haad hopen
  have hnames : listed.map name = (t.rows.filter p).map key := by
    refine map_of_opens hall fun row hrow record hrecord => ?_
    obtain ⟨read, hread, hname⟩ := h row (List.mem_filter.1 hrow).1
    rw [hrecord.unique hread, hname]
  refine ⟨listed, hlisted, fun row hrow => ?_⟩
  rw [hnames, List.mem_map]
  constructor
  · rintro ⟨row', hrow', hkey⟩
    obtain ⟨hmem, hp⟩ := List.mem_filter.1 hrow'
    have hsame := (Table.find_of_mem hmem).symm.trans (hkey ▸ Table.find_of_mem hrow)
    cases hsame
    exact hp
  · intro hp
    exact ⟨row, List.mem_filter.2 ⟨hrow, hp⟩, rfl⟩

end TgCryptFs
