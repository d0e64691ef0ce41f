import TgCryptFs.Library.FileSystem

set_option autoImplicit false

/-!
# How far a path can go down

Each link that is followed leaves fewer to follow, and between two links a path goes down no
further than the longest location. So a search that goes down through links comes to an end,
whatever the links are. The order in which a directory is read is the file system's own.
-/
namespace TgCryptFs.Library.FileSystem

variable {β : Type} {fs fs' : FileSystem β}

/-! ## Links left to follow -/

theorem resolveFrom_mono (h : ∀ l k, fs.kind l = some k → fs'.kind l = some k) {budget : ℕ}
    {cur : Location} {q : Pieces} {r : ℕ × Location} (hr : fs.resolveFrom budget cur q = some r) :
    fs'.resolveFrom budget cur q = some r :=
  resolveFrom_transfer (P := fun _ => True) trivial (fun _ => trivial) (fun l k hk _ => h l k hk)
    (fun _ _ => trivial) hr

theorem walk_le {budget : ℕ} {follow : Location → Pieces → Option (ℕ × Location)}
    (hfollow : ∀ cur q r, follow cur q = some r → r.1 ≤ budget) (p : Pieces) (cur : Location)
    {r : ℕ × Location} (hw : fs.walk budget follow cur p = some r) : r.1 ≤ budget := by
  induction p generalizing cur with
  | nil =>
    cases hw
    exact le_rfl
  | cons x xs ih =>
    rw [walk] at hw
    split at hw
    · cases hw
    split at hw
    · exact ih _ hw
    split at hw
    · exact ih _ hw
    split at hw
    · cases hw
    · exact hfollow _ _ _ hw
    · exact ih _ hw

theorem resolveFrom_le {budget : ℕ} {cur : Location} {q : Pieces} {r : ℕ × Location}
    (hr : fs.resolveFrom budget cur q = some r) : r.1 ≤ budget := by
  induction budget generalizing cur q r with
  | zero => exact walk_le (fun _ _ _ h => by cases h) q cur hr
  | succ budget ih => exact walk_le (fun _ _ _ h => (ih h).trans (Nat.le_succ _)) q cur hr

theorem walk_of_le {budget budget' : ℕ} {follow follow' : Location → Pieces → Option (ℕ × Location)}
    (hfollow : ∀ cur q r, follow cur q = some r → ∃ b, follow' cur q = some (b, r.2)) (p : Pieces)
    (cur : Location) {r : ℕ × Location} (hw : fs.walk budget follow cur p = some r) :
    ∃ b, fs.walk budget' follow' cur p = some (b, r.2) := by
  induction p generalizing cur with
  | nil =>
    cases hw
    exact ⟨budget', rfl⟩
  | cons x xs ih =>
    rw [walk] at hw ⊢
    split at hw
    · cases hw
    rename_i hcur
    rw [if_neg hcur]
    split at hw
    · rename_i hx
      rw [if_pos hx]
      exact ih _ hw
    rename_i hx
    rw [if_neg hx]
    split at hw
    · rename_i hx
      rw [if_pos hx]
      exact ih _ hw
    rename_i hx
    rw [if_neg hx]
    split at hw
    · cases hw
    · rename_i t hk
      exact hfollow _ _ _ hw
    · exact ih _ hw

/-- With more links to follow a path leads where it did with fewer. -/
theorem resolveFrom_of_le {budget budget' : ℕ} (hle : budget ≤ budget') {cur : Location}
    {q : Pieces} {r : ℕ × Location} (hr : fs.resolveFrom budget cur q = some r) :
    ∃ b, fs.resolveFrom budget' cur q = some (b, r.2) := by
  induction budget generalizing budget' cur q r with
  | zero =>
    cases budget' with
    | zero => exact ⟨r.1, hr⟩
    | succ budget' => exact walk_of_le (fun _ _ _ h => by cases h) q cur hr
  | succ budget ih =>
    obtain ⟨budget', rfl⟩ := Nat.exists_eq_add_of_lt (Nat.lt_of_succ_le hle)
    exact walk_of_le (fun _ _ _ h => ih (Nat.le_add_right _ _) h) q cur hr

/-- The last name of a path that leads somewhere: an entry itself, or a link that was followed. -/
theorem resolveFrom_name_cases {budget b : ℕ} {x l : Location} {n : String} (hn : ¬ Special n)
    (hr : fs.resolveFrom budget x [n] = some (b, l)) :
    fs.kind x = some .dir ∧ ∃ k, fs.kind (x ++ [n]) = some k ∧
      (b = budget ∧ l = x ++ [n] ∧ (∀ t, k ≠ .link t) ∨ b < budget ∧ ∃ t, k = .link t) := by
  rw [Special, ← or_assoc, not_or] at hn
  have hwalk : ∀ follow, fs.walk budget follow x [n] = some (b, l) →
      fs.kind x = some .dir ∧ ∃ k, fs.kind (x ++ [n]) = some k ∧
        (b = budget ∧ l = x ++ [n] ∧ (∀ t, k ≠ .link t) ∨
          (∃ cur q, follow cur q = some (b, l)) ∧ ∃ t, k = .link t) := by
    intro follow hw
    rw [walk, if_neg hn.1, if_neg hn.2] at hw
    split at hw
    · cases hw
    rename_i hx
    refine ⟨not_not.1 hx, ?_⟩
    split at hw
    · cases hw
    · rename_i t hk
      exact ⟨_, hk, .inr ⟨⟨_, _, hw⟩, t, rfl⟩⟩
    · rename_i k hlink hk
      cases hw
      exact ⟨k, hk, .inl ⟨rfl, rfl, fun t ht => hlink t (ht ▸ rfl)⟩⟩
  cases budget with
  | zero =>
    obtain ⟨hx, k, hk, hend | ⟨⟨_, _, h⟩, -⟩⟩ := hwalk _ hr
    · exact ⟨hx, k, hk, .inl hend⟩
    · cases h
  | succ budget =>
    obtain ⟨hx, k, hk, hend | ⟨⟨_, _, h⟩, hlink⟩⟩ := hwalk _ hr
    · exact ⟨hx, k, hk, .inl hend⟩
    · exact ⟨hx, k, hk, .inr ⟨Nat.lt_succ_of_le (resolveFrom_le h), hlink⟩⟩

theorem resolve_append {p q : Pieces} {l : Location} (h : fs.resolve (p ++ q) = some l) :
    ∃ b x c, fs.resolveFrom maxLinks [] p = some (b, x) ∧ fs.resolveFrom b x q = some (c, l) := by
  obtain ⟨⟨c, l'⟩, hr, rfl⟩ := Option.map_eq_some_iff.1 h
  rw [resolveFrom_append] at hr
  obtain ⟨⟨b, x⟩, hp, hq⟩ := Option.bind_eq_some_iff.1 hr
  exact ⟨b, x, c, hp, hq⟩

theorem resolve_eq_some {path : Pieces} {l : Location} :
    fs.resolve path = some l ↔ ∃ b, fs.resolveFrom maxLinks [] path = some (b, l) := by
  rw [resolve, Option.map_eq_some_iff]
  constructor
  · rintro ⟨⟨b, _⟩, hr, rfl⟩
    exact ⟨b, hr⟩
  · rintro ⟨b, hr⟩
    exact ⟨(b, l), hr, rfl⟩

/-- A detour that leads back to where it began can be left out. -/
theorem resolve_shortcut {p c q : Pieces} {x l : Location} (hp : fs.resolve p = some x)
    (hc : fs.resolve (p ++ c) = some x) (hq : fs.resolve (p ++ c ++ q) = some l) :
    fs.resolve (p ++ q) = some l := by
  obtain ⟨b, y, r, hpc, hq⟩ := resolve_append hq
  obtain ⟨r', hpc'⟩ := resolve_eq_some.1 hc
  cases hpc.symm.trans hpc'
  obtain ⟨b', hp⟩ := resolve_eq_some.1 hp
  have hle : b ≤ b' := by
    rw [resolveFrom_append, hp, Option.bind_some] at hpc
    exact resolveFrom_le hpc
  obtain ⟨r'', hq'⟩ := resolveFrom_of_le hle hq
  refine resolve_eq_some.2 ⟨r'', ?_⟩
  rw [resolveFrom_append, hp, Option.bind_some, hq']

/-- What the last name of a path leads to lies in the directory before it. -/
theorem resolve_concat {p : Pieces} {n : String} {l : Location} (hn : ¬ Special n)
    (h : fs.resolve (p ++ [n]) = some l) : ∃ x k, fs.resolve p = some x ∧ fs.kind x = some .dir ∧
      fs.kind (x ++ [n]) = some k ∧ (l = x ++ [n] ∧ (∀ t, k ≠ .link t) ∨ ∃ t, k = .link t) := by
  obtain ⟨b, x, c, hp, hl⟩ := resolve_append h
  obtain ⟨hx, k, hk, hcase⟩ := resolveFrom_name_cases hn hl
  exact ⟨x, k, resolve_eq_some.2 ⟨b, hp⟩, hx, hk, hcase.imp And.right And.right⟩

theorem resolve_of_append {p q : Pieces} {l : Location} (h : fs.resolve (p ++ q) = some l) :
    ∃ x, fs.resolve p = some x := by
  obtain ⟨b, x, -, hp, -⟩ := resolve_append h
  exact ⟨x, resolve_eq_some.2 ⟨b, hp⟩⟩

/-! ## The entry that a path names -/

theorem lstat_concat {p : Pieces} {n : String} (hn : ¬ Special n) :
    fs.lstat (p ++ [n]) = (fs.resolve p).bind fun x =>
      if (fs.kind (x ++ [n])).isSome then some (x ++ [n]) else none := by
  rw [lstat, List.getLast?_concat]
  dsimp only
  rw [if_neg hn, named, dropWhile_concat fun e => hn (.inl e)]
  dsimp only
  rw [if_neg fun e => hn (.inr e), List.reverse_reverse]

theorem lstat_concat_eq_some {p : Pieces} {n : String} {l : Location} (hn : ¬ Special n) :
    fs.lstat (p ++ [n]) = some l ↔
      ∃ x, fs.resolve p = some x ∧ l = x ++ [n] ∧ fs.kind l ≠ none := by
  rw [lstat_concat hn, Option.bind_eq_some_iff]
  refine exists_congr fun x => and_congr_right fun _ => ?_
  constructor
  · intro h
    split at h
    · rename_i hk
      cases h
      exact ⟨rfl, Option.isSome_iff_ne_none.1 hk⟩
    · cases h
  · rintro ⟨rfl, hk⟩
    rw [if_pos (Option.isSome_iff_ne_none.2 hk)]

theorem lstat_mono (h : ∀ l k, fs.kind l = some k → fs'.kind l = some k) {path : Pieces}
    {l : Location} (hl : fs.lstat path = some l) : fs'.lstat path = some l := by
  unfold lstat at hl ⊢
  split at hl
  · cases hl
  split at hl
  · rename_i hn
    rw [if_pos hn]
    exact resolve_mono h hl
  · rename_i hn
    rw [if_neg hn]
    exact named_mono h hl

theorem kind_of_walk {budget : ℕ} {follow : Location → Pieces → Option (ℕ × Location)}
    (hfollow : ∀ cur q r, fs.kind cur ≠ none → follow cur q = some r → fs.kind r.2 ≠ none)
    (p : Pieces) (cur : Location) (hcur : fs.kind cur ≠ none) {r : ℕ × Location}
    (hw : fs.walk budget follow cur p = some r) : fs.kind r.2 ≠ none := by
  induction p generalizing cur with
  | nil =>
    cases hw
    exact hcur
  | cons x xs ih =>
    rw [walk] at hw
    split at hw
    · cases hw
    split at hw
    · exact ih _ hcur hw
    split at hw
    · refine ih _ ?_ hw
      rcases List.eq_nil_or_concat cur with rfl | ⟨y, n, rfl⟩
      · exact hcur
      · obtain ⟨k, hk⟩ := Option.ne_none_iff_exists'.1 hcur
        rw [List.concat_eq_append, List.dropLast_concat, kind_parent (by rwa [List.concat_eq_append] at hk)]
        exact Option.some_ne_none _
    split at hw
    · cases hw
    · refine hfollow _ _ _ ?_ hw
      split
      · rw [kind_root]
        exact Option.some_ne_none _
      · exact hcur
    · rename_i k _ hk
      exact ih _ (hk ▸ Option.some_ne_none k) hw

/-- A path leads to an entry. -/
theorem kind_of_resolve {path : Pieces} {l : Location} (h : fs.resolve path = some l) :
    fs.kind l ≠ none := by
  have hfrom : ∀ budget cur q r, fs.kind cur ≠ none → fs.resolveFrom budget cur q = some r →
      fs.kind r.2 ≠ none := by
    intro budget
    induction budget with
    | zero => exact fun cur q r hcur => kind_of_walk (fun _ _ _ _ h => by cases h) q cur hcur
    | succ budget ih => exact fun cur q r hcur => kind_of_walk ih q cur hcur
  obtain ⟨b, hb⟩ := resolve_eq_some.1 h
  exact hfrom _ _ _ _ (kind_root fs ▸ Option.some_ne_none _) hb

theorem kind_of_lstat {path : Pieces} {l : Location} (h : fs.lstat path = some l) :
    fs.kind l ≠ none := by
  unfold lstat at h
  split at h
  · cases h
  split at h
  · exact kind_of_resolve h
  · obtain ⟨d, n, r, slashes, -, -, -, -, hk⟩ := named_eq_some h
    exact hk

/-- A path that leads somewhere and names no link leads to what it names. -/
theorem eq_of_lstat {path : Pieces} {l x : Location} (hl : fs.lstat path = some l)
    (hx : fs.resolve path = some x) (hlink : ∀ t, fs.kind l ≠ some (.link t)) : l = x := by
  unfold lstat at hl
  split at hl
  · cases hl
  split at hl
  · exact Option.some.inj (hl.symm.trans hx)
  obtain ⟨d, n, r, slashes, rfl, rfl, hs, hd, hk⟩ := named_eq_some hl
  obtain ⟨b, y, c, hy, hrest⟩ := resolve_append hx
  obtain ⟨k, hk⟩ := Option.ne_none_iff_exists'.1 hk
  obtain ⟨d', k', hd', -, hk', hcase⟩ := resolve_concat (not_special hk) (resolve_eq_some.2 ⟨b, hy⟩)
  cases hd.symm.trans hd'
  cases hk.symm.trans hk'
  rcases hcase with ⟨rfl, -⟩ | ⟨t, rfl⟩
  · -- after a name there are only slashes
    cases slashes with
    | nil =>
      cases b with
      | zero => exact (Prod.mk.inj (Option.some.inj hrest)).2
      | succ b => exact (Prod.mk.inj (Option.some.inj hrest)).2
    | cons s ss =>
      by_cases hdir : fs.kind (d ++ [n]) = some .dir
      · rw [resolveFrom_slashes hdir b hs] at hrest
        cases hrest
        rfl
      · cases b with
        | zero =>
          rw [resolveFrom, walk, if_pos hdir] at hrest
          cases hrest
        | succ b =>
          rw [resolveFrom, walk, if_pos hdir] at hrest
          cases hrest
  · exact absurd hk (hlink t)

/-! ## Steps left to go down -/

/-- A bound on the directories a search can enter one below the other, from the one a path leads
    to, where no location is longer than `longest`. -/
def stepsLeft (fs : FileSystem β) (longest : ℕ) (path : Pieces) : ℕ :=
  match fs.resolveFrom maxLinks [] path with
  | none => 1
  | some (b, l) => (b + 1) * (longest + 1) - l.length

def NoneLonger (fs : FileSystem β) (longest : ℕ) : Prop :=
  ∀ l k, fs.kind l = some k → l.length ≤ longest

theorem stepsLeft_pos {longest : ℕ} (hlen : fs.NoneLonger longest) (path : Pieces) :
    0 < fs.stepsLeft longest path := by
  unfold stepsLeft
  split
  · exact Nat.one_pos
  · rename_i b l hr
    obtain ⟨k, hk⟩ := Option.ne_none_iff_exists'.1 (kind_of_resolve (resolve_eq_some.2 ⟨b, hr⟩))
    have hl := hlen l k hk
    have hmul : longest + 1 ≤ (b + 1) * (longest + 1) := Nat.le_mul_of_pos_left _ (Nat.succ_pos b)
    omega

theorem stepsLeft_le {longest : ℕ} (path : Pieces) :
    fs.stepsLeft longest path ≤ (maxLinks + 1) * (longest + 1) := by
  unfold stepsLeft
  split
  · exact Nat.mul_pos (Nat.succ_pos _) (Nat.succ_pos _)
  · rename_i b l hr
    have hmul := Nat.mul_le_mul_right (longest + 1) (Nat.succ_le_succ (resolveFrom_le hr))
    exact (Nat.sub_le _ _).trans hmul

/-- Whatever has been removed meanwhile, a directory further down leaves fewer steps. -/
theorem stepsLeft_concat {longest : ℕ} (hlen : fs.NoneLonger longest)
    (hsub : ∀ l k, fs'.kind l = some k → fs.kind l = some k) {path : Pieces} {n : String}
    (hn : ¬ Special n) {l : Location} (h : fs'.resolve (path ++ [n]) = some l) :
    fs'.stepsLeft longest (path ++ [n]) < fs.stepsLeft longest path := by
  obtain ⟨b, x, c, hp, hl⟩ := resolve_append h
  have hpath : fs'.resolveFrom maxLinks [] (path ++ [n]) = some (c, l) := by
    rw [resolveFrom_append, hp, Option.bind_some, hl]
  obtain ⟨hx, k, hk, hcase⟩ := resolveFrom_name_cases hn hl
  have hxlen := hlen x _ (hsub x _ hx)
  rw [stepsLeft, stepsLeft, hpath, resolveFrom_mono hsub hp]
  dsimp only
  have hb : (b + 1) * (longest + 1) = b * (longest + 1) + (longest + 1) := Nat.succ_mul _ _
  rcases hcase with ⟨rfl, rfl, -⟩ | ⟨hlt, -⟩
  · rw [List.length_append, List.length_singleton]
    omega
  · have hmul : (c + 1) * (longest + 1) ≤ b * (longest + 1) := Nat.mul_le_mul_right _ hlt
    omega

/-! ## The order of a listing -/

/-- The same entries, those for which `first` holds before the others. -/
def relist (fs : FileSystem β) (first : Location → Prop) [DecidablePred first] : FileSystem β where
  entries := fs.entries.filter (fun e => first e.1) ++ fs.entries.filter fun e => !decide (first e.1)
  content := fs.content
  nodup := ((List.filter_append_perm _ _).map Prod.fst).nodup_iff.2 fs.nodup
  root := (List.filter_append_perm _ _).mem_iff.2 fs.root
  parent l n k h :=
    (List.filter_append_perm _ _).mem_iff.2 (fs.parent l n k ((List.filter_append_perm _ _).mem_iff.1 h))
  name l n k h := fs.name l n k ((List.filter_append_perm _ _).mem_iff.1 h)

theorem kind_relist (fs : FileSystem β) (first : Location → Prop) [DecidablePred first] (l : Location) :
    (fs.relist first).kind l = fs.kind l := by
  ext k
  rw [kind_eq_some, kind_eq_some]
  exact (List.filter_append_perm _ _).mem_iff

/-- An entry that is the only one of its directory to come first comes first. -/
theorem readDir_relist {first : Location → Prop} [DecidablePred first] {x : Location} {n : String}
    (hk : fs.kind (x ++ [n]) ≠ none) (hfirst : first (x ++ [n]))
    (honly : ∀ m, first (x ++ [m]) → m = n) : ∃ rest, (fs.relist first).readDir x = n :: rest := by
  obtain ⟨k, hk⟩ := Option.ne_none_iff_exists'.1 hk
  let name (e : Location × Kind) : Option String :=
    if e.1 ≠ [] ∧ e.1.dropLast = x then e.1.getLast? else none
  have hsplit : (fs.relist first).readDir x =
      (fs.entries.filter (fun e => first e.1)).filterMap name ++
        (fs.entries.filter fun e => !decide (first e.1)).filterMap name := List.filterMap_append
  have hmem : n ∈ (fs.entries.filter (fun e => first e.1)).filterMap name :=
    List.mem_filterMap.2 ⟨(x ++ [n], k), List.mem_filter.2 ⟨kind_eq_some.1 hk, decide_eq_true hfirst⟩,
      getLast?_eq_iff.2 rfl⟩
  have hall : ∀ m ∈ (fs.entries.filter (fun e => first e.1)).filterMap name, m = n := by
    intro m hm
    obtain ⟨⟨y, ky⟩, he, hy⟩ := List.mem_filterMap.1 hm
    obtain rfl : y = x ++ [m] := getLast?_eq_iff.1 hy
    exact honly m (of_decide_eq_true (List.mem_filter.1 he).2)
  rw [hsplit]
  cases hlist : (fs.entries.filter (fun e => first e.1)).filterMap name with
  | nil =>
    rw [hlist] at hmem
    cases hmem
  | cons m ms =>
    rw [hlist] at hall
    rw [hall m List.mem_cons_self]
    exact ⟨_, rfl⟩

end TgCryptFs.Library.FileSystem
