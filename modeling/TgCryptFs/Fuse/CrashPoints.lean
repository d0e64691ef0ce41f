import TgCryptFs.Fuse.Effects

set_option autoImplicit false

/-!
# The committed table between two calls

A handler whose statements on the inode table are one statement, or all lie inside one
transaction, leaves only two committed tables to a crash: the one before and the one
after.
-/
namespace TgCryptFs
open Library

section

variable {α β : Type}

/-- A call that cannot end a transaction. -/
def Op.staysInside : Op → Bool
  | .begin | .commit | .rollback => false
  | _ => true

/-- A program inside a transaction: nothing touches the table once it has been ended. -/
def EndsTransaction : Fuse α → Prop
  | .ret _ => True
  | .call o k =>
    (o.staysInside = true ∧ ∀ x, EndsTransaction (k x)) ∨
    ∀ x, (k x).Uses fun o => o.sparesInodes = true

/-- A program with one statement on the table, or one transaction. -/
inductive OneChange : Fuse α → Prop where
  | ret (a : α) : OneChange (.ret a)
  | spares {o : Op} {k : Ans o → Fuse α} (ho : o.sparesInodes = true) (hk : ∀ x, OneChange (k x)) :
      OneChange (.call o k)
  | statement {o : Op} {k : Ans o → Fuse α} (ho : o.staysInside = true)
      (hk : ∀ x, (k x).Uses fun o => o.sparesInodes = true) : OneChange (.call o k)
  | transaction {k : Except SqlError Unit → Fuse α}
      (herr : ∀ e, (k (.error e)).Uses fun o => o.sparesInodes = true)
      (hok : EndsTransaction (k (.ok ()))) : OneChange (.call .begin k)

theorem oneChange_of_uses {p : Fuse α} (hp : p.Uses fun o => o.sparesInodes = true) : OneChange p := by
  induction p with
  | ret a => exact .ret a
  | call o k ih => exact .spares hp.1 fun x => ih x (hp.2 x)

theorem oneChange_bind_of_uses {p : Fuse α} {f : α → Fuse β}
    (hp : p.Uses fun o => o.sparesInodes = true) (hf : ∀ a, OneChange (f a)) : OneChange (p >>= f) := by
  change OneChange (p.bind f)
  induction p with
  | ret a => exact hf a
  | call o k ih => exact .spares hp.1 fun x => ih x (hp.2 x)

theorem endsTransaction_bind {p : Fuse α} {f : α → Fuse β} (hp : EndsTransaction p)
    (hf : ∀ a, (f a).Uses fun o => o.sparesInodes = true) : EndsTransaction (p >>= f) := by
  change EndsTransaction (p.bind f)
  induction p with
  | ret a =>
    change EndsTransaction (f a)
    have h := hf a
    generalize f a = q at h
    induction q with
    | ret b => trivial
    | call o k ih => exact .inr h.2
  | call o k ih =>
    rcases hp with ⟨ho, hk⟩ | hk
    · exact .inl ⟨ho, fun x => ih x (hk x)⟩
    · exact .inr fun x => CallTree.uses_bind (hk x) hf

theorem oneChange_bind {p : Fuse α} {f : α → Fuse β} (hp : OneChange p)
    (hf : ∀ a, (f a).Uses fun o => o.sparesInodes = true) : OneChange (p >>= f) := by
  change OneChange (p.bind f)
  induction hp with
  | ret a => exact oneChange_of_uses (hf a)
  | spares ho _ ih => exact .spares ho ih
  | statement ho hk => exact .statement ho fun x => CallTree.uses_bind (hk x) hf
  | transaction herr hok =>
    exact .transaction (fun e => CallTree.uses_bind (herr e) hf) (endsTransaction_bind hok hf)

theorem endsTransaction_editRow {getSite updateSite : Site} {ino : ℕ} {g : Inode → Inode}
    {f : Unit → Fuse β} (hf : EndsTransaction (f ())) :
    EndsTransaction (editRow getSite updateSite ino g >>= f) := by
  refine .inl ⟨rfl, fun x => ?_⟩
  rcases x with e | (_ | p)
  · exact hf
  · exact hf
  · exact .inl ⟨rfl, fun _ => hf⟩

theorem oneChange_setattr (ino : ℕ) (c : AttrChange) : OneChange (setattr ino c) := by
  refine .spares rfl fun x => ?_
  rcases x with e | (_ | i)
  · exact .ret _
  · exact .ret _
  refine .spares rfl fun _ => .spares rfl fun _ => .spares rfl fun _ => .statement rfl fun y => ?_
  cases y <;> trivial

theorem oneChange_init (m : Mount) : OneChange (init m) := by
  refine .spares rfl fun x => ?_
  rcases x with e | (_ | i)
  · exact .ret _
  · refine .spares rfl fun _ => .statement rfl fun y => ?_
    cases y <;> trivial
  · exact .ret _

theorem oneChange_write (ino fh offset : ℕ) (data : Bytes) : OneChange (write ino fh offset data) := by
  refine .spares rfl fun updated => ?_
  cases updated with
  | false => exact .ret _
  | true =>
    refine .spares rfl fun h => ?_
    cases h with
    | none => exact .ret _
    | some handle =>
      refine .spares rfl fun x => ?_
      rcases x with e | (_ | i)
      · exact .ret _
      · exact .ret _
      · exact .spares rfl fun _ => .statement rfl fun _ => trivial

theorem oneChange_linkEntry (p inode : Inode) (dir : Bool) : OneChange (linkEntry p inode dir) := by
  refine .transaction (fun _ => trivial) (.inl ⟨rfl, fun x => ?_⟩)
  cases x with
  | error e => exact .inr fun _ => trivial
  | ok _ =>
    refine .inl ⟨rfl, fun y => ?_⟩
    cases y with
    | error e => exact .inr fun _ => trivial
    | ok _ =>
      refine .inr fun z => ?_
      cases z <;> trivial

theorem oneChange_linkFresh (p : Inode) (make : ℕ → ℤ → Inode) (dir : Bool) :
    OneChange (linkFresh p make dir) := by
  refine .spares rfl fun y => ?_
  cases y with
  | error e => exact .ret _
  | ok ino => exact .spares rfl fun t => oneChange_linkEntry _ _ _

theorem oneChange_linkNew (parent : ℕ) (name : String) (make : ℕ → ℤ → Inode) (dir : Bool) :
    OneChange (linkNew parent name make dir) := by
  refine .spares rfl fun x => ?_
  rcases x with e | (_ | p)
  · exact .ret _
  · exact .ret _
  dsimp only
  split
  · exact .ret _
  refine .spares rfl fun x => ?_
  rcases x with e | (_ | i)
  · exact oneChange_linkFresh p make dir
  · exact oneChange_linkFresh p make dir
  · exact .ret _

theorem oneChange_mkdir (c : Caller) (parent : ℕ) (name : OsStr) (mode : ℕ) :
    OneChange (mkdir c parent name mode) := by
  cases name with
  | invalid raw => exact .ret _
  | utf8 name =>
    refine oneChange_bind (oneChange_linkNew _ _ _ _) fun a => ?_
    cases a <;> trivial

theorem oneChange_create (c : Caller) (parent : ℕ) (name : OsStr) (mode : ℕ) (flags : ℤ) :
    OneChange (create c parent name mode flags) := by
  cases name with
  | invalid raw => exact .ret _
  | utf8 name =>
    refine oneChange_bind (oneChange_linkNew _ _ _ _) fun a => ?_
    cases a with
    | error e => trivial
    | ok i => exact ⟨rfl, fun _ => trivial⟩

theorem oneChange_removeEntry (parent : ℕ) (inode : Inode) (dir : Bool) :
    OneChange (removeEntry parent inode dir) := by
  refine .transaction (fun _ => trivial) (endsTransaction_editRow (.inl ⟨rfl, fun y => ?_⟩))
  cases y with
  | error e => exact .inr fun _ => trivial
  | ok _ => exact .inr fun _ => trivial

theorem oneChange_unlink (parent : ℕ) (name : OsStr) : OneChange (unlink parent name) := by
  cases name with
  | invalid raw => exact .ret _
  | utf8 name =>
    refine .spares rfl fun x => ?_
    rcases x with e | (_ | i)
    · exact .ret _
    · exact .ret _
    dsimp only
    split
    · exact .ret _
    · exact oneChange_removeEntry _ _ _

theorem oneChange_rmdir (parent : ℕ) (name : OsStr) : OneChange (rmdir parent name) := by
  cases name with
  | invalid raw => exact .ret _
  | utf8 name =>
    refine .spares rfl fun x => ?_
    rcases x with e | (_ | i)
    · exact .ret _
    · exact .ret _
    dsimp only
    split
    · exact .ret _
    split
    · exact .ret _
    · exact oneChange_removeEntry _ _ _

theorem endsTransaction_moveEntry (parent newparent : ℕ) (newname : String) (inode : Inode) :
    EndsTransaction (moveEntry parent newparent newname inode) :=
  endsTransaction_editRow (.inl ⟨rfl, fun _ => .inl ⟨rfl, fun _ =>
    endsTransaction_editRow (.inr fun _ => trivial)⟩⟩)

theorem oneChange_rename (parent : ℕ) (name : OsStr) (newparent : ℕ) (newname : OsStr) :
    OneChange (rename parent name newparent newname) := by
  rcases name with name | raw
  case invalid => exact .ret _
  rcases newname with newname | raw
  case invalid => exact .ret _
  refine .spares rfl fun x => ?_
  rcases x with e | (_ | i)
  · exact .ret _
  · exact .ret _
  refine .transaction (fun _ => trivial) (.inl ⟨rfl, fun x => ?_⟩)
  rcases x with e | (_ | d)
  · exact endsTransaction_moveEntry _ _ _ _
  · exact endsTransaction_moveEntry _ _ _ _
  dsimp only
  split
  · trivial
  · exact .inl ⟨rfl, fun _ => endsTransaction_editRow (endsTransaction_moveEntry _ _ _ _)⟩

end

section

variable [Primitives] {α : Type}

theorem oneChange_flushHandle (m : Mount) (ino : ℕ) (data : Bytes) :
    OneChange (flushHandle m ino data) := by
  refine oneChange_bind_of_uses ((uses_flushToTransport m ino data).mono fun _ h => h.1) fun block => ?_
  cases block with
  | none => exact .ret _
  | some block =>
    refine .spares rfl fun x => ?_
    rcases x with e | (_ | i)
    · exact .ret _
    · exact .ret _
    · exact .statement rfl fun _ => trivial

theorem oneChange_release (m : Mount) (ino fh : ℕ) : OneChange (release m ino fh) := by
  refine oneChange_bind (.spares rfl fun h => ?_) fun _ => ⟨rfl, fun _ => trivial⟩
  cases h with
  | none => exact .ret _
  | some handle =>
    dsimp only
    split
    · exact oneChange_flushHandle m ino handle.writeBuffer
    · exact .ret _

theorem oneChange_handler (m : Mount) (req : Request)
    (h : ∀ c parent name target, req ≠ .symlink c parent name target) :
    OneChange (handler m req) := by
  cases req with
  | init => exact oneChange_init m
  | lookup parent name => exact oneChange_of_uses ((uses_lookup parent name).mono fun _ h => h.1)
  | getattr ino => exact oneChange_of_uses ((uses_getattr ino).mono fun _ h => h.1)
  | setattr ino c => exact oneChange_setattr ino c
  | mkdir c parent name mode => exact oneChange_mkdir c parent name mode
  | create c parent name mode flags => exact oneChange_create c parent name mode flags
  | openFile ino flags => exact oneChange_of_uses ((uses_openFile ino flags).mono fun _ h => h.1)
  | release ino fh => exact oneChange_release m ino fh
  | read ino fh offset size =>
    exact oneChange_of_uses ((uses_read m ino fh offset size).mono fun _ h => (Op.passive_of_cacheOnly h).1)
  | write ino fh offset data => exact oneChange_write ino fh offset data
  | unlink parent name => exact oneChange_unlink parent name
  | rmdir parent name => exact oneChange_rmdir parent name
  | readdir ino offset capacity =>
    exact oneChange_of_uses ((uses_readdir ino offset capacity).mono fun _ h => h.1)
  | rename parent name newparent newname => exact oneChange_rename parent name newparent newname
  | readlink ino => exact oneChange_of_uses ((uses_readlink ino).mono fun _ h => h.1)
  | symlink c parent name target => exact (h c parent name target rfl).elim
  | statfs => exact .ret _

theorem sameInodes_stateAfter (env : Env) (p : Fuse α)
    (hp : p.Uses fun o => o.sparesInodes = true) (s : System) (n : ℕ) :
    s.SameInodes (p.stateAfter env.serve n s) :=
  CallTree.always_of_stateAfter env.serve _ p s
    (CallTree.always_of_uses env.serve (fun s' => s.SameInodes s') _
      (fun o _ ho h => h.trans (sameInodes_serve env o _ ho)) p hp s (.refl s)) n

/-- Inside a transaction with `saved` to go back to. -/
def System.Inside (saved : Inodes) (s : System) : Prop :=
  ¬ s.conn.IsAutocommit ∧ s.durable = saved

theorem System.SameInodes.inside {saved : Inodes} {s s' : System} (h : s.SameInodes s')
    (hs : s.Inside saved) : s'.Inside saved :=
  ⟨fun hc => hs.1 (h.mode.1 hc), h.durable.trans hs.2⟩

theorem inside_writeInodes {saved : Inodes} {s : System} (hs : s.Inside saved) (t : Inodes) :
    (s.writeInodes t).Inside saved := by
  refine ⟨fun hc => hs.1 ((Connection.isAutocommit_write _ _).1 hc), ?_⟩
  rw [System.durable_writeInodes, if_neg hs.1, hs.2]

theorem inside_serve {env : Env} {o : Op} {saved : Inodes} {s : System}
    (ho : o.staysInside = true) (hs : s.Inside saved) : (env.serve o s).2.Inside saved := by
  cases o with
  | begin | commit | rollback => cases ho
  | insert i =>
    rw [Env.serve_insert]
    split
    · exact inside_writeInodes hs _
    · exact hs
  | update site i =>
    rw [Env.snd_serve_update]
    exact inside_writeInodes hs _
  | delete site ino =>
    rw [Env.snd_serve_delete]
    exact inside_writeInodes hs _
  | _ => exact (sameInodes_serve env _ s rfl).inside hs

theorem durable_endsTransaction (env : Env) (p : Fuse α) (hp : EndsTransaction p) {saved : Inodes}
    (s : System) (hs : s.Inside saved) (n : ℕ) :
    (p.stateAfter env.serve n s).durable = saved ∨
    (p.stateAfter env.serve n s).durable = (p.run env.serve s).2.durable := by
  induction p generalizing s n with
  | ret a =>
    rw [CallTree.stateAfter_ret]
    exact .inl hs.2
  | call o k ih =>
    cases n with
    | zero =>
      rw [CallTree.stateAfter_zero]
      exact .inl hs.2
    | succ n =>
      rw [CallTree.stateAfter_call, CallTree.run_call]
      rcases hp with ⟨ho, hk⟩ | hk
      · exact ih _ (hk _) _ (inside_serve ho hs) n
      · have h := hk (env.serve o s).1
        right
        rw [(sameInodes_stateAfter env _ h _ n).durable, (sameInodes_run env _ h _).durable]

theorem durable_oneChange (env : Env) (p : Fuse α) (hp : OneChange p) (s : System) (n : ℕ) :
    (p.stateAfter env.serve n s).durable = s.durable ∨
    (p.stateAfter env.serve n s).durable = (p.run env.serve s).2.durable := by
  induction hp generalizing s n with
  | ret a =>
    rw [CallTree.stateAfter_ret]
    exact .inl rfl
  | @spares o k ho _ ih =>
    cases n with
    | zero => exact .inl (by rw [CallTree.stateAfter_zero])
    | succ n =>
      rw [CallTree.stateAfter_call, CallTree.run_call, ← (sameInodes_serve env o s ho).durable]
      exact ih _ _ n
  | @statement o k _ hk =>
    cases n with
    | zero => exact .inl (by rw [CallTree.stateAfter_zero])
    | succ n =>
      have h := hk (env.serve o s).1
      right
      rw [CallTree.stateAfter_call, CallTree.run_call, (sameInodes_stateAfter env _ h _ n).durable,
        (sameInodes_run env _ h _).durable]
  | @transaction k herr hok =>
    cases n with
    | zero => exact .inl (by rw [CallTree.stateAfter_zero])
    | succ n =>
      rw [CallTree.stateAfter_call, CallTree.run_call, Env.serve_begin]
      by_cases hb : env.sql .begin = true ∧ s.conn.IsAutocommit
      · simp only [hb, and_self, if_true]
        exact durable_endsTransaction env _ hok s.begun ⟨id, System.inodes_eq_durable hb.2⟩ n
      · simp only [hb, if_false]
        exact .inl (sameInodes_stateAfter env _ (herr _) s n).durable

end

end TgCryptFs
