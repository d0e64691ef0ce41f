import Mathlib.Data.List.Infix
import Mathlib.Data.List.Nodup
import Mathlib.Tactic.Common
import TgCryptFs.Library.Pool

set_option autoImplicit false

/-!
# A catalogue and the script that fills it

What a database has of tables and indices, and the statements that create one of them where it
is missing. A script runs statement by statement, each committed on its own, and can be cut off
between any two of them.
-/
namespace TgCryptFs.Library

inductive SqlType where
  | text | integer | blob
deriving DecidableEq, Repr

structure ColumnSpec where
  name : String
  type : SqlType
  primaryKey : Bool := false
  autoincrement : Bool := false
  notNull : Bool := false
  default : Option ℤ := none
deriving DecidableEq, Repr

structure TableSpec where
  name : String
  columns : List ColumnSpec
  primaryKey : List String := []
deriving DecidableEq, Repr

structure IndexSpec where
  name : String
  table : String
  columns : List String
  unique : Bool := false
deriving DecidableEq, Repr

namespace TableSpec

def columnNames (t : TableSpec) : List String := t.columns.map (·.name)

end TableSpec

inductive CatalogueEntry where
  | table (t : TableSpec)
  | index (i : IndexSpec)
deriving DecidableEq, Repr

namespace CatalogueEntry

def name : CatalogueEntry → String
  | table t => t.name
  | index i => i.name

def tableNamed (a : String) : CatalogueEntry → Option TableSpec
  | table t => if t.name = a then some t else none
  | index _ => none

def isIndexNamed (a : String) : CatalogueEntry → Bool
  | table _ => false
  | index i => i.name = a

end CatalogueEntry

/-- Why a statement fails, with the name it is about. -/
inductive CatalogueError where
  | indexNamed (name : String)
  | tableNamed (name : String)
  | noSuchTable (name : String)
  | duplicateColumn (table : String)
  | noSuchColumn (index : String)
deriving DecidableEq, Repr

/-- The entries in the order of their creation. -/
abbrev Catalogue := List CatalogueEntry

namespace Catalogue

def table? (a : String) (c : Catalogue) : Option TableSpec :=
  c.findSome? (CatalogueEntry.tableNamed a)

def hasIndex (a : String) (c : Catalogue) : Bool := c.any (CatalogueEntry.isIndexNamed a)

/-- `CREATE TABLE IF NOT EXISTS` and `CREATE [UNIQUE] INDEX IF NOT EXISTS`. Tables and indices
    share their names. -/
def create (e : CatalogueEntry) (c : Catalogue) : Except CatalogueError Catalogue :=
  match e with
  | .table t =>
    if (c.table? t.name).isSome then .ok c
    else if c.hasIndex t.name then .error (.indexNamed t.name)
    else if t.columnNames.Nodup then .ok (c ++ [.table t])
    else .error (.duplicateColumn t.name)
  | .index i =>
    match c.table? i.table with
    | none => .error (.noSuchTable i.table)
    | some t =>
      if (c.table? i.name).isSome then .error (.tableNamed i.name)
      else if c.hasIndex i.name then .ok c
      else if i.columns ⊆ t.columnNames then .ok (c ++ [.index i])
      else .error (.noSuchColumn i.name)

/-- The first statement that fails ends the script. -/
def run : List CatalogueEntry → Catalogue → Catalogue × Except CatalogueError Unit
  | [], c => (c, .ok ())
  | e :: es, c =>
    match create e c with
    | .error x => (c, .error x)
    | .ok c' => run es c'

theorem run_append {es es' : List CatalogueEntry} {c c' : Catalogue}
    (h : run es c = (c', .ok ())) : run (es ++ es') c = run es' c' := by
  induction es generalizing c with
  | nil =>
    obtain rfl : c = c' := congrArg Prod.fst h
    rfl
  | cons e es ih =>
    rw [run] at h
    cases hcreate : create e c with
    | error x => simp [hcreate] at h
    | ok c'' =>
      simp only [hcreate] at h
      simp only [List.cons_append, run, hcreate]
      exact ih h

theorem run_append_eq_ok {es es' : List CatalogueEntry} {c c' : Catalogue}
    (h : run (es ++ es') c = (c', .ok ())) :
    ∃ c'', run es c = (c'', .ok ()) ∧ run es' c'' = (c', .ok ()) := by
  induction es generalizing c with
  | nil => exact ⟨c, rfl, h⟩
  | cons e es ih =>
    rw [List.cons_append, run] at h
    cases hcreate : create e c with
    | error x => simp [hcreate] at h
    | ok c₁ =>
      simp only [hcreate] at h
      simp only [run, hcreate]
      exact ih h

/-! ## Scripts that can be repeated -/

/-- What the script names is new, and an index comes behind its table. -/
structure Creatable (earlier : Catalogue) (e : CatalogueEntry) : Prop where
  fresh : ∀ x ∈ earlier, x.name ≠ e.name
  columns : ∀ t, e = .table t → t.columnNames.Nodup
  behind : ∀ i, e = .index i → ∃ t, .table t ∈ earlier ∧ t.name = i.table ∧
    i.columns ⊆ t.columnNames

def Ordered (es : List CatalogueEntry) : Prop :=
  ∀ pre e post, es = pre ++ e :: post → Creatable pre e

theorem Ordered.of_append {es es' : List CatalogueEntry} (h : Ordered (es ++ es')) : Ordered es := by
  intro pre e post heq
  apply h pre e (post ++ es')
  simp [heq]

theorem Ordered.take {es : List CatalogueEntry} (h : Ordered es) (n : ℕ) : Ordered (es.take n) := by
  have happ : Ordered (es.take n ++ es.drop n) := by simpa using h
  exact happ.of_append

theorem Ordered.eq_of_name {es : List CatalogueEntry} (h : Ordered es) {x y : CatalogueEntry}
    (hx : x ∈ es) (hy : y ∈ es) (hname : x.name = y.name) : x = y := by
  obtain ⟨pre, post, rfl⟩ := List.append_of_mem hx
  by_contra hne
  obtain hy | hy := List.mem_append.1 hy
  · exact (h pre x post rfl).fresh y hy hname.symm
  · have hy : y ∈ post := (List.mem_cons.1 hy).resolve_left (Ne.symm hne)
    obtain ⟨mid, rest, rfl⟩ := List.append_of_mem hy
    have hcreatable := h (pre ++ x :: mid) y rest (by simp)
    exact hcreatable.fresh x (by simp) hname

theorem table?_eq_none {c : Catalogue} {a : String} (h : ∀ t, .table t ∈ c → t.name ≠ a) :
    c.table? a = none := by
  apply List.findSome?_eq_none_iff.2
  intro e he
  cases e with
  | table t => simpa [CatalogueEntry.tableNamed] using h t he
  | index i => rfl

theorem table?_eq_some {c : Catalogue} (hc : Ordered c) {t : TableSpec} (ht : .table t ∈ c) :
    c.table? t.name = some t := by
  cases hfind : c.table? t.name with
  | none =>
    have hnone := List.findSome?_eq_none_iff.1 hfind _ ht
    simp [CatalogueEntry.tableNamed] at hnone
  | some t' =>
    obtain ⟨e, he, heq⟩ := List.exists_of_findSome?_eq_some hfind
    cases e with
    | index i => cases heq
    | table t'' =>
      simp only [CatalogueEntry.tableNamed, Option.ite_none_right_eq_some, Option.some.injEq] at heq
      obtain ⟨hname, rfl⟩ := heq
      have hsame : CatalogueEntry.table t'' = .table t := hc.eq_of_name he ht hname
      rw [CatalogueEntry.table.inj hsame]

theorem hasIndex_iff {c : Catalogue} {a : String} :
    c.hasIndex a = true ↔ ∃ i, .index i ∈ c ∧ i.name = a := by
  simp only [hasIndex, List.any_eq_true]
  constructor
  · rintro ⟨e, he, hname⟩
    cases e with
    | table t => simp [CatalogueEntry.isIndexNamed] at hname
    | index i => exact ⟨i, he, by simpa [CatalogueEntry.isIndexNamed] using hname⟩
  · rintro ⟨i, hi, hname⟩
    exact ⟨.index i, hi, by simpa [CatalogueEntry.isIndexNamed] using hname⟩

/-- A statement whose time has come adds its entry. -/
theorem create_new {c : Catalogue} (hc : Ordered c) {e : CatalogueEntry} (he : Creatable c e) :
    create e c = .ok (c ++ [e]) := by
  have hindex : c.hasIndex e.name = false := by
    rw [Bool.eq_false_iff, Ne, hasIndex_iff]
    rintro ⟨i, hi, hname⟩
    exact he.fresh _ hi hname
  have htable : c.table? e.name = none := table?_eq_none fun t ht => he.fresh _ ht
  cases e with
  | table t =>
    rw [CatalogueEntry.name] at hindex htable
    simp [create, htable, hindex, he.columns t rfl]
  | index i =>
    rw [CatalogueEntry.name] at hindex htable
    obtain ⟨t, ht, hname, hcolumns⟩ := he.behind i rfl
    have howner : c.table? i.table = some t := hname ▸ table?_eq_some hc ht
    simp [create, howner, htable, hindex, hcolumns]

/-- A statement whose entry is there changes nothing. -/
theorem create_old {c : Catalogue} (hc : Ordered c) {e : CatalogueEntry} (he : e ∈ c) :
    create e c = .ok c := by
  cases e with
  | table t => simp [create, table?_eq_some hc he]
  | index i =>
    obtain ⟨pre, post, hsplit⟩ := List.append_of_mem he
    obtain ⟨t, ht, hname, -⟩ := (hc pre _ post hsplit).behind i rfl
    have howner : c.table? i.table = some t := by
      rw [← hname]
      apply table?_eq_some hc
      simp [hsplit, ht]
    have htable : c.table? i.name = none := by
      apply table?_eq_none
      intro t' ht' hsame
      have hmixed := hc.eq_of_name ht' he hsame
      cases hmixed
    have hindex : c.hasIndex i.name = true := hasIndex_iff.2 ⟨i, he, rfl⟩
    simp [create, howner, htable, hindex]

/-- From where a first run was cut off, a second one that is cut off too comes as far as the
    longer of the two. -/
theorem run_take {es : List CatalogueEntry} (hes : Ordered es) (m n : ℕ) :
    run (es.take n) (es.take m) = (es.take (max m n), .ok ()) := by
  induction n with
  | zero => simp [run]
  | succ n ih =>
    by_cases hn : n < es.length
    · rw [List.take_succ_eq_append_getElem hn, run_append ih]
      by_cases hmn : n < m
      · have hmem : es[n] ∈ es.take (max m n) := by
          rw [List.mem_take_iff_getElem]
          exact ⟨n, by omega, rfl⟩
        have hmax : max m (n + 1) = max m n := by omega
        simp only [run, create_old (hes.take _) hmem, hmax]
      · have hcreatable : Creatable (es.take n) es[n] := by
          apply hes (es.take n) es[n] (es.drop (n + 1))
          simp
        have hmax : max m n = n ∧ max m (n + 1) = n + 1 := by omega
        simp only [hmax, run, create_new (hes.take n) hcreatable,
          List.take_succ_eq_append_getElem hn]
    · have hall : ∀ k, n ≤ k → es.take k = es := by
        intro k hk
        apply List.take_of_length_le
        omega
      rw [hall n le_rfl, hall _ (le_max_right m n)] at ih
      rw [hall (n + 1) (by omega), hall (max m (n + 1)) (by omega)]
      exact ih

/-- From wherever the script was cut off, one run of all of it completes the catalogue. -/
theorem run_of_take {es : List CatalogueEntry} (hes : Ordered es) (k : ℕ) :
    run es (es.take k) = (es, .ok ()) := by
  have hrun := run_take hes k es.length
  rwa [List.take_length, List.take_of_length_le (le_max_right _ _)] at hrun

/-! ## Several runs of one script at once -/

inductive ScriptRun where
  | running (rest : List CatalogueEntry)
  | finished (result : Except CatalogueError Unit)
  | killed

inductive ScriptAction where
  | statement | kill

namespace ScriptRun

/-- The next statement of a run, or the end of its process. -/
def advance (a : ScriptAction) (c : Catalogue) (w : ScriptRun) : Option (Catalogue × ScriptRun) :=
  match a, w with
  | .statement, running [] => some (c, finished (.ok ()))
  | .statement, running (e :: rest) =>
    match create e c with
    | .error x => some (c, finished (.error x))
    | .ok c' => some (c', running rest)
  | .kill, running _ => some (c, killed)
  | _, _ => none

/-- The runs of a script, begun at any time. -/
abbrev Reachable (es : List CatalogueEntry) : Pool Catalogue ScriptRun → Prop :=
  Pool.Reachable (fun _ (_ : Unit) => running es) advance []

/-- A run has nothing to do that lies before the last entry, and it has not failed. -/
def Covered (es : List CatalogueEntry) (k : ℕ) : ScriptRun → Prop
  | running rest => ∃ n ≤ k, rest = es.drop n
  | finished result => result = .ok () ∧ es.length ≤ k
  | killed => True

theorem Covered.mono {es : List CatalogueEntry} {k k' : ℕ} {w : ScriptRun} (h : Covered es k w)
    (hk : k ≤ k') : Covered es k' w := by
  cases w with
  | running rest =>
    obtain ⟨n, hn, hrest⟩ := h
    exact ⟨n, hn.trans hk, hrest⟩
  | finished result => exact ⟨h.1, h.2.trans hk⟩
  | killed => trivial

theorem covered_advance {es : List CatalogueEntry} (hes : Ordered es) {a : ScriptAction} {k : ℕ}
    {c : Catalogue} {w w' : ScriptRun} (hw : Covered es k w) (hk : k ≤ es.length)
    (h : advance a (es.take k) w = some (c, w')) :
    ∃ k', k ≤ k' ∧ k' ≤ es.length ∧ c = es.take k' ∧ Covered es k' w' := by
  cases w with
  | finished result => cases a <;> simp [advance] at h
  | killed => cases a <;> simp [advance] at h
  | running rest =>
    cases a with
    | kill =>
      simp only [advance, Option.some.injEq, Prod.mk.injEq] at h
      obtain ⟨rfl, rfl⟩ := h
      exact ⟨k, le_rfl, hk, rfl, trivial⟩
    | statement =>
      obtain ⟨n, hn, rfl⟩ := hw
      by_cases hend : es.length ≤ n
      · rw [List.drop_of_length_le hend] at h
        simp only [advance, Option.some.injEq, Prod.mk.injEq] at h
        obtain ⟨rfl, rfl⟩ := h
        exact ⟨k, le_rfl, hk, rfl, rfl, hend.trans hn⟩
      · have hlt : n < es.length := by omega
        rw [List.drop_eq_getElem_cons hlt] at h
        by_cases hold : n < k
        · have hmem : es[n] ∈ es.take k := List.mem_take_iff_getElem.2 ⟨n, by omega, rfl⟩
          simp only [advance, create_old (hes.take k) hmem, Option.some.injEq, Prod.mk.injEq] at h
          obtain ⟨rfl, rfl⟩ := h
          exact ⟨k, le_rfl, hk, rfl, n + 1, hold, rfl⟩
        · obtain rfl : n = k := by omega
          have hcreatable : Creatable (es.take n) es[n] := by
            apply hes (es.take n) es[n] (es.drop (n + 1))
            simp
          simp only [advance, create_new (hes.take n) hcreatable, Option.some.injEq,
            Prod.mk.injEq] at h
          obtain ⟨rfl, rfl⟩ := h
          refine ⟨n + 1, by omega, by omega, ?_, n + 1, le_rfl, rfl⟩
          rw [List.take_succ_eq_append_getElem hlt]

/-- In every interleaving of runs, some of them killed: the catalogue is a first part of the
    script, and what a run has behind it is in it. -/
theorem covered_of_reachable {es : List CatalogueEntry} (hes : Ordered es)
    {p : Pool Catalogue ScriptRun} (h : Reachable es p) :
    ∃ k ≤ es.length, p.shared = es.take k ∧ ∀ w ∈ p.workers, Covered es k w := by
  refine h.invariant (fun p => ∃ k ≤ es.length, p.shared = es.take k ∧
    ∀ w ∈ p.workers, Covered es k w) ⟨0, by simp, by simp, by simp⟩ ?_
  rintro e p ⟨k, hk, hshared, hworkers⟩ he
  obtain ⟨p', hp'⟩ := Pool.exists_next he
  rw [Pool.step_of_next hp']
  obtain ⟨u, -, rfl⟩ | ⟨i, a, w, c, w', -, hw, hadv, rfl⟩ := Pool.next_cases hp'
  · refine ⟨k, hk, hshared, fun w hw => ?_⟩
    obtain hw | hw := List.mem_append.1 hw
    · exact hworkers w hw
    · rw [List.mem_singleton.1 hw]
      exact ⟨0, by omega, by simp⟩
  · rw [hshared] at hadv
    obtain ⟨k', hkk', hk', rfl, hcovered⟩ :=
      covered_advance hes (hworkers w (List.mem_of_getElem? hw)) hk hadv
    refine ⟨k', hk', rfl, fun x hx => ?_⟩
    obtain hx | rfl := List.mem_or_eq_of_mem_set hx
    · exact (hworkers x hx).mono hkk'
    · exact hcovered

end ScriptRun

/-! ## Scripts of tables with their indices -/

/-- A table and then its indices, for each of the pairs. -/
def script (batches : List (TableSpec × List IndexSpec)) : List CatalogueEntry :=
  batches.flatMap fun b => .table b.1 :: b.2.map .index

theorem script_cons (b : TableSpec × List IndexSpec) (bs : List (TableSpec × List IndexSpec)) :
    script (b :: bs) = script [b] ++ script bs := by
  simp [script]

theorem ordered_script {batches : List (TableSpec × List IndexSpec)}
    (hnames : ((script batches).map CatalogueEntry.name).Nodup)
    (hcolumns : ∀ b ∈ batches, b.1.columnNames.Nodup)
    (hindexes : ∀ b ∈ batches, ∀ i ∈ b.2, i.table = b.1.name ∧ i.columns ⊆ b.1.columnNames) :
    Ordered (script batches) := by
  intro pre e post heq
  constructor
  case fresh =>
    rw [heq, List.map_append, List.map_cons] at hnames
    intro x hx hname
    have hdisjoint := (List.nodup_append.1 hnames).2.2
    exact hdisjoint x.name (List.mem_map_of_mem hx) e.name (by simp) hname
  case columns =>
    rintro t rfl
    have hmem : CatalogueEntry.table t ∈ script batches := by simp [heq]
    obtain ⟨b, hb, hmem⟩ := List.mem_flatMap.1 hmem
    have ht : t = b.1 := by simpa using hmem
    exact ht ▸ hcolumns b hb
  case behind =>
    rintro i rfl
    clear hnames hcolumns
    induction batches generalizing pre with
    | nil => simp [script] at heq
    | cons b bs ih =>
      have hscript : script (b :: bs) = .table b.1 :: (b.2.map .index ++ script bs) := by
        simp [script]
      rw [hscript] at heq
      cases pre with
      | nil => simp at heq
      | cons x pre =>
        obtain ⟨rfl, hrest⟩ := List.cons.inj heq
        obtain ⟨mid, hpre, hbs⟩ | ⟨mid, hown, hpost⟩ := List.append_eq_append_iff.1 hrest
        · obtain ⟨t, ht, hi⟩ := ih (fun b hb => hindexes b (by simp [hb])) mid hbs
          exact ⟨t, by simp [hpre, ht], hi⟩
        · cases mid with
          | nil =>
            have hbs : script bs = [] ++ .index i :: post := by simpa using hpost.symm
            obtain ⟨t, ht, hi⟩ := ih (fun b hb => hindexes b (by simp [hb])) [] hbs
            simp at ht
          | cons y mid =>
            obtain ⟨rfl, -⟩ := List.cons.inj hpost
            have hmem : CatalogueEntry.index i ∈ b.2.map .index := by simp [hown]
            obtain ⟨i', hi', heq'⟩ := List.mem_map.1 hmem
            obtain rfl := CatalogueEntry.index.inj heq'
            obtain ⟨htable, hcols⟩ := hindexes b (by simp) i' hi'
            exact ⟨b.1, by simp, htable.symm, hcols⟩

end Catalogue
end TgCryptFs.Library
