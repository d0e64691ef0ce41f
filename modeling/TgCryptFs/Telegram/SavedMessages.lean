import TgCryptFs.Fuse.Calls
import TgCryptFs.Telegram.Transfers

set_option autoImplicit false

/-!
# Blocks in Saved Messages

The client together with the account that it stores in. Telegram gives a message an id of its
own and does not change its document; what other devices send and delete comes between. The
transport that the file system counts on is the table of the uploads that have returned.
-/
namespace TgCryptFs
open Library

namespace TelegramClient

section Search

/-- The search finds what is there: the messages come newest first, so that all behind the one
    wanted, or behind an older one, need not be seen. -/
theorem findMessage_of_descending {id : ℤ} {msgs : List SavedMessage}
    (hsorted : msgs.Pairwise fun a b => b.id < a.id) (rest : List (Except String SavedMessage))
    (hseen : rest = [] ∨ ∃ m ∈ msgs, m.id ≤ id) :
    findMessage id (msgs.map .ok ++ rest) = .ok (msgs.find? (·.id = id)) := by
  induction msgs with
  | nil =>
    obtain rfl : rest = [] := hseen.resolve_right fun ⟨m, hm, _⟩ => nomatch hm
    rfl
  | cons m msgs ih =>
    obtain ⟨hm, hsorted⟩ := List.pairwise_cons.1 hsorted
    rw [List.map_cons, List.cons_append, findMessage, List.find?_cons]
    by_cases heq : m.id = id
    · rw [if_pos heq, decide_eq_true heq]
    · rw [if_neg heq, decide_eq_false heq]
      by_cases hlt : m.id < id
      · rw [if_pos hlt, List.find?_eq_none.2 fun x hx => ?_]
        have := hm x hx
        simp only [decide_eq_true_eq]
        omega
      · rw [if_neg hlt]
        refine ih hsorted (hseen.imp_right ?_)
        rintro ⟨x, hx, hle⟩
        obtain rfl | hx := List.mem_cons.1 hx
        · omega
        · exact ⟨x, hx, hle⟩

theorem mem_of_findMessage {id : ℤ} {items : List (Except String SavedMessage)}
    {msg : SavedMessage} (h : findMessage id items = .ok (some msg)) :
    msg.id = id ∧ .ok msg ∈ items := by
  induction items with
  | nil => cases h
  | cons item rest ih =>
    cases item with
    | error e => cases h
    | ok m =>
      rw [findMessage] at h
      split at h
      · rename_i heq
        cases h
        exact ⟨heq, List.mem_cons_self⟩
      · split at h
        · cases h
        · exact (ih h).imp_right (List.mem_cons_of_mem _)

theorem collectChunks_ok (chunks : List Bytes) (data : Bytes) :
    collectChunks (chunks.map .ok) data = .ok (data ++ chunks.flatten) := by
  induction chunks generalizing data with
  | nil => rw [List.flatten_nil, List.append_nil]; rfl
  | cons chunk chunks ih =>
    rw [List.map_cons, collectChunks, ih, List.flatten_cons, List.append_assoc]

/-- What an account has under an id. -/
def lookupBlock (msgs : List SavedMessage) (id : ℤ) : Except TelegramError DownloadResult := do
  let msg ← (msgs.find? (·.id = id)).elim (.error (.messageNotFound id)) .ok
  let media ← msg.media.elim (.error (.download "message has no media")) .ok
  return { data := media, messageId := id }

/-- A download on an account whose messages are strictly newest first, with the wanted message
    or an older one yielded before any failure, and the document in any chunks: it returns the
    document, and its error says what is missing otherwise. -/
theorem doDownload_eq {net : Network} {id : ℤ} {msgs : List SavedMessage}
    {rest : List (Except String SavedMessage)} (hme : net.getMe = .ok ())
    (hsorted : msgs.Pairwise fun a b => b.id < a.id)
    (hlist : net.iterMessages = msgs.map .ok ++ rest)
    (hseen : rest = [] ∨ ∃ m ∈ msgs, m.id ≤ id)
    (hchunks : ∀ media, ∃ chunks : List Bytes,
      net.iterDownload media = chunks.map .ok ∧ chunks.flatten = media) :
    doDownload net true id = lookupBlock msgs id := by
  rw [doDownload, if_pos rfl, hme, hlist, findMessage_of_descending hsorted rest hseen,
    lookupBlock]
  cases hfind : msgs.find? (·.id = id) with
  | none => rfl
  | some msg =>
    cases hmedia : msg.media with
    | none => simp [Except.mapError, bind, Except.bind, hmedia]
    | some media =>
      obtain ⟨chunks, hchunk, hflat⟩ := hchunks media
      have hdata : collectChunks (net.iterDownload media) [] = .ok media := by
        rw [hchunk, collectChunks_ok, hflat, List.nil_append]
      simp [Except.mapError, bind, Except.bind, hmedia, hdata]

theorem doDownload_eq_sample :
    doDownload (answering 0 [⟨9, none⟩, ⟨7, some [1, 2]⟩, ⟨3, some [5]⟩]) true 7 =
      .ok { data := [1, 2], messageId := 7 } :=
  have hsorted : [⟨9, none⟩, ⟨7, some [1, 2]⟩, ⟨3, some [5]⟩].Pairwise
      fun a b : SavedMessage => b.id < a.id := by decide
  doDownload_eq rfl hsorted (List.append_nil _).symm (.inl rfl)
    fun media => ⟨[media], rfl, List.flatten_singleton⟩

end Search

end TelegramClient

/-! ## The account -/

/-- The block that an upload has stored: the id it has returned, and its bytes. -/
def TelegramTask.stored (t : TelegramTask) : Option (ℤ × Bytes) :=
  match t.call, t.phase with
  | .uploadBlock data _, .returned _ (.ok (.uploaded r)) => some (r.messageId, data)
  | _, _ => none

/-- The block that a download has returned. -/
def TelegramTask.fetched (t : TelegramTask) : Option (ℤ × Bytes) :=
  match t.call, t.phase with
  | .downloadBlock id, .returned _ (.ok (.downloaded r)) => some (id, r.data)
  | _, _ => none

/-- The ids that a successful deletion has asked for. -/
def TelegramTask.erased (t : TelegramTask) : List ℤ :=
  t.phase.outcome.elim [] fun _ => t.call.requested.map wrapI32

/-- The calls, every message that there ever was, and the ids of those that are gone. -/
structure SavedMessages where
  pool : Pool TelegramClient TelegramTask
  history : List SavedMessage
  deleted : List ℤ

/-- Something that a call does, with the messages that have come and gone by then. -/
structure SavedEvent where
  event : PoolEvent TelegramCall TelegramAction
  sent : List SavedMessage
  deleted : List ℤ

namespace SavedEvent

/-- Nothing is answered. -/
def quiet (e : SavedEvent) : Bool :=
  match e.event with
  | .act _ (.answer _) => false
  | _ => true

end SavedEvent

namespace SavedMessages

open TelegramClient

def step (build : Overflow) (e : SavedEvent) (s : SavedMessages) : SavedMessages where
  pool := Pool.step enter (advance build) e.event s.pool
  history := e.sent ++ s.history
  deleted := e.deleted ++ s.deleted

/-- What Telegram does with the requests of a call. -/
structure Served (e : SavedEvent) (s : SavedMessages) (call : TelegramCall) (net : Network) :
    Prop where
  /-- A message that is sent has a new id, and the document that was uploaded. -/
  sent : ∀ data filename id, call = .uploadBlock data filename → net.uploadStream = .ok () →
    net.getMe = .ok () → net.sendMessage = .ok id → ⟨id, some data⟩ ∈ e.sent
  /-- What is yielded is there. -/
  yielded : ∀ msg, .ok msg ∈ net.iterMessages →
    msg ∈ e.sent ++ s.history ∧ msg.id ∉ e.deleted ++ s.deleted
  /-- A stream of chunks that ends without an error is the document. -/
  whole : ∀ media data, collectChunks (net.iterDownload media) [] = .ok data → data = media
  /-- An acknowledged deletion is done. -/
  erased : net.deleteMessages = .ok () →
    ∀ id ∈ call.requested, wrapI32 id ∈ e.deleted ++ s.deleted

/-- The ids stay unique, and each answer is a true one. -/
structure Honest (build : Overflow) (e : SavedEvent) (s : SavedMessages) : Prop where
  admitted : Pool.admitted enter (advance build) e.event s.pool
  unique : (e.sent ++ s.history).Pairwise (·.id ≠ ·.id)
  served : ∀ i net t, e.event = .act i (.answer net) → s.pool.workers[i]? = some t →
    Served e s t.call net

abbrev Reachable (build : Overflow) (config : TelegramConfig) : SavedMessages → Prop :=
  Runs (step build) (Honest build) ⟨⟨new config, []⟩, [], []⟩

/-- What a call has returned is true of the account. -/
structure Witnessed (s : SavedMessages) (t : TelegramTask) : Prop where
  stored : ∀ b, t.stored = some b → ⟨b.1, some b.2⟩ ∈ s.history
  fetched : ∀ b, t.fetched = some b → ⟨b.1, some b.2⟩ ∈ s.history
  erased : ∀ id ∈ t.erased, id ∈ s.deleted

section

variable {build : Overflow} {config : TelegramConfig} {s : SavedMessages} {e : SavedEvent}

/-- Only an answer under the lock brings a call other than `connect` to a reply. -/
theorem exists_answer {a : TelegramAction} {c c' : TelegramClient} {t t' : TelegramTask}
    (h : advance build a c t = some (c', t')) (hcall : t.call ≠ .connect)
    {n : ℕ} {reply : TelegramReply} (hphase : t'.phase = .returned n (.ok reply)) :
    ∃ net m, a = .answer net ∧ t.phase = .working m ∧
      t' = ⟨t.call, (c.turn build net t.call m).2⟩ := by
  obtain ⟨call, phase⟩ := t
  cases a with
  | acquire =>
    simp only [advance] at h
    split at h
    · split at h
      · cases h
      · split at h <;> cases h <;> cases hphase
    · cases h
  | lock =>
    simp only [advance] at h
    split at h
    · cases h
    · split at h
      · cases h; cases hphase
      · exact absurd rfl hcall
      · cases h
  | answer net =>
    cases phase with
    | working m => cases h; exact ⟨net, m, rfl, rfl, rfl⟩
    | connecting =>
      cases call with
      | connect => exact absurd rfl hcall
      | _ => cases h
    | _ => cases h
  | wake =>
    simp only [advance] at h
    split at h
    · cases h; cases hphase
    · cases h
  | drop =>
    simp only [advance] at h
    split at h
    · cases h
    · cases h; cases hphase

theorem attempted_eq_ok {d : Direction} {m n : ℕ} {c : TelegramClient} {reply : TelegramReply}
    {r : Except TelegramError (TelegramReply × ℕ)}
    (h : (c.attempted build d m r).2 = .returned n (.ok reply)) : ∃ bytes, r = .ok (reply, bytes) := by
  unfold attempted at h
  cases r with
  | ok x =>
    obtain ⟨reply', bytes⟩ := x
    cases h
    exact ⟨bytes, rfl⟩
  | error e =>
    dsimp only at h
    split at h
    · cases hdelay : retryDelay build c.config m <;> simp [hdelay] at h
    · cases h

theorem stored_eq_some {t : TelegramTask} {b : ℤ × Bytes} (h : t.stored = some b) :
    ∃ data filename n r, t = ⟨.uploadBlock data filename, .returned n (.ok (.uploaded r))⟩ ∧
      b = (r.messageId, data) := by
  obtain ⟨call, phase⟩ := t
  unfold TelegramTask.stored at h
  split at h
  · rename_i data filename n r hcall hphase
    obtain rfl : call = _ := hcall
    obtain rfl : phase = _ := hphase
    exact ⟨data, filename, n, r, rfl, (Option.some.inj h).symm⟩
  · cases h

theorem fetched_eq_some {t : TelegramTask} {b : ℤ × Bytes} (h : t.fetched = some b) :
    ∃ id n r, t = ⟨.downloadBlock id, .returned n (.ok (.downloaded r))⟩ ∧ b = (id, r.data) := by
  obtain ⟨call, phase⟩ := t
  unfold TelegramTask.fetched at h
  split at h
  · rename_i id n r hcall hphase
    obtain rfl : call = _ := hcall
    obtain rfl : phase = _ := hphase
    exact ⟨id, n, r, rfl, (Option.some.inj h).symm⟩
  · cases h

/-- The answer to an upload puts its block into the account as a new message. -/
theorem stored_turn {net : Network} {m : ℕ} {c : TelegramClient} {call : TelegramCall}
    (hserved : Served e s call net) {b : ℤ × Bytes}
    (h : TelegramTask.stored ⟨call, (c.turn build net call m).2⟩ = some b) :
    ⟨b.1, some b.2⟩ ∈ e.sent := by
  obtain ⟨data, filename, n, r, ht, rfl⟩ := stored_eq_some h
  obtain ⟨rfl, hphase⟩ := TelegramTask.mk.inj ht
  obtain ⟨bytes, hr⟩ := attempted_eq_ok hphase
  cases hup : doUpload net c.inner data with
  | error e => rw [hup] at hr; cases hr
  | ok r' =>
    rw [hup] at hr
    cases hr
    obtain ⟨hstream, hme, hsend, -⟩ := doUpload_eq_ok hup
    exact hserved.sent data filename _ rfl hstream hme hsend

/-- What a download returns is a message of the account that is not gone. -/
theorem fetched_turn {net : Network} {m : ℕ} {c : TelegramClient} {call : TelegramCall}
    (hserved : Served e s call net) {b : ℤ × Bytes}
    (h : TelegramTask.fetched ⟨call, (c.turn build net call m).2⟩ = some b) :
    ⟨b.1, some b.2⟩ ∈ e.sent ++ s.history ∧ b.1 ∉ e.deleted ++ s.deleted := by
  obtain ⟨id, n, r, ht, rfl⟩ := fetched_eq_some h
  obtain ⟨rfl, hphase⟩ := TelegramTask.mk.inj ht
  obtain ⟨bytes, hr⟩ := attempted_eq_ok hphase
  cases hdown : doDownload net c.inner id with
  | error e => rw [hdown] at hr; cases hr
  | ok r' =>
    rw [hdown] at hr
    cases hr
    obtain ⟨-, ⟨id', media'⟩, media, hfind, hmedia, hdata⟩ := doDownload_eq_ok hdown
    obtain ⟨rfl, hmem⟩ := mem_of_findMessage hfind
    obtain rfl : media' = some media := hmedia
    rw [hserved.whole media r.data hdata]
    exact hserved.yielded _ hmem

theorem doDelete_eq_ok {net : Network} {inner : Bool} (h : doDelete net inner = .ok ()) :
    net.deleteMessages = .ok () := by
  unfold doDelete at h
  split at h
  · obtain ⟨-, -, h⟩ := bind_eq_ok.1 h
    exact mapError_eq_ok.1 h
  · cases h

theorem erased_of_requested {call : TelegramCall} (phase : TelegramPhase)
    (h : call.requested = []) : TelegramTask.erased ⟨call, phase⟩ = [] := by
  rw [TelegramTask.erased, h]
  cases phase.outcome <;> rfl

theorem erased_deleted {r : Except TelegramError Unit} {c : TelegramClient} {call : TelegramCall}
    {id : ℤ} (h : id ∈ TelegramTask.erased ⟨call, (c.deleted call.deletions r).2⟩) :
    r = .ok () ∧ ∃ id' ∈ call.requested, wrapI32 id' = id := by
  cases r with
  | error x => cases h
  | ok u => exact ⟨rfl, List.mem_map.1 h⟩

theorem erased_turn {net : Network} {m : ℕ} {c : TelegramClient} {call : TelegramCall}
    (hserved : Served e s call net) {id : ℤ}
    (h : id ∈ TelegramTask.erased ⟨call, (c.turn build net call m).2⟩) :
    id ∈ e.deleted ++ s.deleted := by
  have hdeleted : ∀ (hr : id ∈ TelegramTask.erased
      ⟨call, (c.deleted call.deletions (doDelete net c.inner)).2⟩), id ∈ e.deleted ++ s.deleted := by
    intro hr
    obtain ⟨hdel, id', hid', rfl⟩ := erased_deleted hr
    exact hserved.erased (doDelete_eq_ok hdel) id' hid'
  cases call with
  | deleteMessage | deleteMessages => exact hdeleted h
  | _ =>
    rw [erased_of_requested _ rfl] at h
    cases h

/-- What a call returns at an event was not there before, and is so of the account after it. -/
theorem advance_cases {a : TelegramAction} {c c' : TelegramClient} {t t' : TelegramTask}
    (hserved : ∀ net, a = .answer net → Served e s t.call net)
    (h : advance build a c t = some (c', t')) :
    t'.stored = none ∧ t'.fetched = none ∧ t'.erased = [] ∨
      t.stored = none ∧ (∀ b, t'.stored = some b → ⟨b.1, some b.2⟩ ∈ e.sent) ∧
        (∀ b, t'.fetched = some b →
          ⟨b.1, some b.2⟩ ∈ e.sent ++ s.history ∧ b.1 ∉ e.deleted ++ s.deleted) ∧
        ∀ id ∈ t'.erased, id ∈ e.deleted ++ s.deleted := by
  by_cases hreply : t.call ≠ .connect ∧ ∃ n reply, t'.phase = .returned n (.ok reply)
  · obtain ⟨hcall, n, reply, hphase⟩ := hreply
    obtain ⟨net, m, rfl, hworking, rfl⟩ := exists_answer h hcall hphase
    have hs := hserved net rfl
    refine .inr ⟨?_, fun b => stored_turn hs, fun b => fetched_turn hs, fun id => erased_turn hs⟩
    rw [TelegramTask.stored, hworking]
    cases t.call <;> rfl
  · obtain ⟨call, phase, phase', rfl, rfl, -⟩ := effect_advance h
    refine .inl ?_
    cases call with
    | connect => exact ⟨rfl, rfl, erased_of_requested _ rfl⟩
    | _ =>
      cases phase' with
      | returned n r =>
        cases r with
        | ok reply => exact absurd ⟨nofun, n, reply, rfl⟩ hreply
        | error x => exact ⟨rfl, rfl, rfl⟩
      | _ => exact ⟨rfl, rfl, rfl⟩

/-- A call that comes in has returned nothing of a block. -/
theorem fresh_nothing {t : TelegramTask} (h : t.phase.outcome = none) :
    t.stored = none ∧ t.fetched = none ∧ t.erased = [] := by
  obtain ⟨call, phase⟩ := t
  cases call <;> cases phase with
  | returned n r => cases r with
    | ok reply => cases h
    | error x => exact ⟨rfl, rfl, rfl⟩
  | _ => exact ⟨rfl, rfl, rfl⟩

/-- No two uploads have returned one id. -/
def Distinct (workers : List TelegramTask) : Prop :=
  ∀ (i j : ℕ) (t t' : TelegramTask) (b b' : ℤ × Bytes), workers[i]? = some t →
    workers[j]? = some t' → t.stored = some b → t'.stored = some b' → b.1 = b'.1 → i = j

theorem Distinct.append {workers : List TelegramTask} (h : Distinct workers) {t₀ : TelegramTask}
    (ht₀ : t₀.stored = none) : Distinct (workers ++ [t₀]) := by
  have hold : ∀ (i : ℕ) (t : TelegramTask) (b : ℤ × Bytes), (workers ++ [t₀])[i]? = some t →
      t.stored = some b → workers[i]? = some t := by
    intro i t b ht hb
    rw [List.getElem?_append] at ht
    split at ht
    · exact ht
    · obtain rfl := List.mem_singleton.1 (List.mem_of_getElem? ht)
      rw [ht₀] at hb
      cases hb
  intro i j t t' b b' ht ht' hb hb'
  exact h i j t t' b b' (hold i t b ht hb) (hold j t' b' ht' hb') hb hb'

/-- A call may return a new id. -/
theorem Distinct.set {workers : List TelegramTask} (h : Distinct workers) {k : ℕ}
    {t₀ : TelegramTask}
    (hnew : ∀ b, t₀.stored = some b → ∀ t ∈ workers, ∀ b', t.stored = some b' → b'.1 ≠ b.1) :
    Distinct (workers.set k t₀) := by
  have hset : ∀ (i : ℕ) (t : TelegramTask), (workers.set k t₀)[i]? = some t →
      i = k ∧ t = t₀ ∨ workers[i]? = some t := by
    intro i t ht
    rw [List.getElem?_set] at ht
    split at ht
    · rename_i heq
      split at ht
      · exact .inl ⟨heq.symm, (Option.some.inj ht).symm⟩
      · cases ht
    · exact .inr ht
  intro i j t t' b b' ht ht' hb hb' heq
  obtain ⟨hi, rfl⟩ | hold := hset i t ht <;> obtain ⟨hj, rfl⟩ | hold' := hset j t' ht'
  · exact hi.trans hj.symm
  · exact absurd heq.symm (hnew b hb t' (List.mem_of_getElem? hold') b' hb')
  · exact absurd heq (hnew b' hb' t (List.mem_of_getElem? hold) b hb)
  · exact h i j t t' b b' hold hold' hb hb' heq

structure Sound (s : SavedMessages) : Prop where
  unique : s.history.Pairwise (·.id ≠ ·.id)
  witnessed : ∀ t ∈ s.pool.workers, Witnessed s t
  distinct : Distinct s.pool.workers

theorem Witnessed.of_nothing {t : TelegramTask}
    (h : t.stored = none ∧ t.fetched = none ∧ t.erased = []) : Witnessed s t where
  stored b hb := nomatch h.1.symm.trans hb
  fetched b hb := nomatch h.2.1.symm.trans hb
  erased id hid := by
    rw [h.2.2] at hid
    cases hid

theorem Witnessed.mono {s' : SavedMessages} {t : TelegramTask} (h : Witnessed s t)
    (hhist : s.history ⊆ s'.history) (hdel : s.deleted ⊆ s'.deleted) : Witnessed s' t where
  stored b hb := hhist (h.stored b hb)
  fetched b hb := hhist (h.fetched b hb)
  erased id hid := hdel (h.erased id hid)

theorem sound_step (hs : Sound s) (he : Honest build e s) : Sound (step build e s) := by
  obtain ⟨p', hp'⟩ := Pool.exists_next he.admitted
  have hpool : (step build e s).pool = p' := Pool.step_of_next hp'
  have hmono : ∀ t, Witnessed s t → Witnessed (step build e s) t := fun t ht =>
    ht.mono (List.subset_append_right _ _) (List.subset_append_right _ _)
  refine ⟨he.unique, ?_, ?_⟩ <;> rw [hpool]
  · obtain ⟨k, -, rfl⟩ | ⟨i, a, t, c', t', hev, ht, hadv, rfl⟩ := Pool.next_cases hp'
    · intro t ht
      obtain ht | ht := List.mem_append.1 ht
      · exact hmono t (hs.witnessed t ht)
      · obtain rfl := List.mem_singleton.1 ht
        exact .of_nothing (fresh_nothing (fresh_enter _ k).outcome)
    · intro x hx
      obtain hx | rfl := List.mem_or_eq_of_mem_set hx
      · exact hmono x (hs.witnessed x hx)
      · have hserved : ∀ net, a = .answer net → Served e s t.call net := fun net ha =>
          he.served i net t (ha ▸ hev) ht
        obtain hnothing | ⟨-, hstored, hfetched, herased⟩ := advance_cases hserved hadv
        · exact .of_nothing hnothing
        · exact ⟨fun b hb => List.mem_append_left _ (hstored b hb),
            fun b hb => (hfetched b hb).1, herased⟩
  · obtain ⟨k, -, rfl⟩ | ⟨i, a, t, c', t', hev, ht, hadv, rfl⟩ := Pool.next_cases hp'
    · exact hs.distinct.append (fresh_nothing (fresh_enter _ k).outcome).1
    · refine hs.distinct.set fun b hb x hx b' hb' heq => ?_
      have hserved : ∀ net, a = .answer net → Served e s t.call net := fun net ha =>
        he.served i net t (ha ▸ hev) ht
      obtain ⟨hnone, -⟩ | ⟨-, hstored, -⟩ := advance_cases hserved hadv
      · rw [hnone] at hb
        cases hb
      · exact (List.pairwise_append.1 he.unique).2.2 _ (hstored b hb) _
          ((hs.witnessed x hx).stored b' hb') heq.symm

theorem sound_of_reachable (h : Reachable build config s) : Sound s :=
  h.invariant Sound ⟨.nil, List.forall_mem_nil _, fun _ _ _ _ _ _ ht => by simp at ht⟩
    fun _ _ => sound_step

theorem eq_of_id {msgs : List SavedMessage} (h : msgs.Pairwise (·.id ≠ ·.id)) {m m' : SavedMessage}
    (hm : m ∈ msgs) (hm' : m' ∈ msgs) (heq : m.id = m'.id) : m = m' := by
  induction h with
  | nil => cases hm
  | cons hx _ ih =>
    obtain rfl | hold := List.mem_cons.1 hm <;> obtain rfl | hold' := List.mem_cons.1 hm'
    · rfl
    · exact absurd heq (hx m' hold')
    · exact absurd heq.symm (hx m hold)
    · exact ih hold hold'

/-- The uploads that have returned, as the transport of the file system. -/
def remote (s : SavedMessages) : Remote := ⟨s.pool.workers.filterMap TelegramTask.stored, []⟩

theorem mem_remote {id : ℤ} {data : Bytes} (h : s.remote.message id = some data) :
    ∃ t ∈ s.pool.workers, t.stored = some (id, data) := by
  obtain ⟨b, hfind, rfl⟩ := Option.map_eq_some_iff.1 h
  obtain ⟨t, ht, hb⟩ := List.mem_filterMap.1 (List.mem_of_find?_eq_some hfind)
  have hid := List.find?_some (p := fun b : ℤ × Bytes => decide (b.1 = id)) hfind
  exact ⟨t, ht, of_decide_eq_true hid ▸ hb⟩

/-- A call after an event is the one before it, or the one that the event is about. -/
theorem workers_step {i : ℕ} {x x' : TelegramTask} (he : Honest build e s)
    (hx : s.pool.workers[i]? = some x) (hx' : (step build e s).pool.workers[i]? = some x') :
    x' = x ∨ ∃ a c', e.event = .act i a ∧ advance build a s.pool.shared x = some (c', x') := by
  obtain ⟨p', hp'⟩ := Pool.exists_next he.admitted
  rw [show (step build e s).pool = p' from Pool.step_of_next hp'] at hx'
  obtain ⟨k, -, rfl⟩ | ⟨j, a, t, c', t', hev, ht, hadv, rfl⟩ := Pool.next_cases hp'
  · rw [List.getElem?_append_left (List.getElem?_eq_some_iff.1 hx).1, hx] at hx'
    exact .inl (Option.some.inj hx').symm
  · rw [List.getElem?_set] at hx'
    split at hx'
    · rename_i hji
      subst hji
      obtain rfl : t = x := Option.some.inj (ht.symm.trans hx)
      rw [if_pos (List.getElem?_eq_some_iff.1 hx).1] at hx'
      obtain rfl : t' = x' := Option.some.inj hx'
      exact .inr ⟨a, c', hev, hadv⟩
    · exact .inl (Option.some.inj (hx'.symm.trans hx))

theorem honest_quiet (hadm : Pool.admitted enter (advance build) e.event s.pool)
    (hunique : (e.sent ++ s.history).Pairwise (·.id ≠ ·.id))
    (hquiet : e.quiet = true) : Honest build e s := by
  refine ⟨hadm, hunique, fun i net _ h => ?_⟩
  rw [SavedEvent.quiet, h] at hquiet
  cases hquiet

theorem honest_answering {i : ℕ} {id : ℤ} {msgs sent : List SavedMessage} {deleted : List ℤ}
    {t : TelegramTask} (ht : s.pool.workers[i]? = some t)
    (hadm : Pool.admitted enter (advance build) (.act i (.answer (answering id msgs))) s.pool)
    (hunique : (sent ++ s.history).Pairwise (·.id ≠ ·.id))
    (hsent : ∀ data filename, t.call = .uploadBlock data filename → ⟨id, some data⟩ ∈ sent)
    (hyielded : ∀ msg ∈ msgs, msg ∈ sent ++ s.history ∧ msg.id ∉ deleted ++ s.deleted)
    (herased : ∀ id ∈ t.call.requested, wrapI32 id ∈ deleted ++ s.deleted) :
    Honest build ⟨.act i (.answer (answering id msgs)), sent, deleted⟩ s := by
  refine ⟨hadm, hunique, fun j net t' hev ht' => ?_⟩
  cases hev
  obtain rfl := Option.some.inj (ht.symm.trans ht')
  refine ⟨?_, ?_, ?_, fun _ => herased⟩
  · intro data filename id' hcall _ _ hid
    obtain rfl : id = id' := Except.ok.inj hid
    exact hsent data filename hcall
  · intro msg hmsg
    obtain ⟨m, hm, hm'⟩ := List.mem_map.1 hmsg
    exact Except.ok.inj hm' ▸ hyielded m hm
  · intro media data hdata
    exact (Except.ok.inj hdata).symm

def sampleClient : TelegramClient where
  config := {}
  uploadPermits := 3
  downloadPermits := 5
  stats := { blocksUploaded := 1, bytesUploaded := 2 }
  connected := true
  inner := true
  locked := false
  passwordToken := none

/-- A block has gone up, between two messages of another device. -/
def uploadedState : SavedMessages where
  pool := ⟨sampleClient, [⟨.connect, .returned 0 (.ok (.auth .authenticated))⟩,
    ⟨.uploadBlock [1, 2] "00.srb1", .returned 0 (.ok (.uploaded ⟨7, 2⟩))⟩]⟩
  history := [⟨8, some [9]⟩, ⟨7, some [1, 2]⟩, ⟨5, none⟩]
  deleted := []

theorem uploadedState_reachable : Reachable .panics {} uploadedState := by
  let events : List SavedEvent :=
    [⟨.enter .connect, [], []⟩, ⟨.act 0 (.answer (answering 0 [])), [], []⟩,
      ⟨.act 0 .lock, [], []⟩, ⟨.enter (.uploadBlock [1, 2] "00.srb1"), [⟨5, none⟩], []⟩,
      ⟨.act 1 .acquire, [], []⟩, ⟨.act 1 .lock, [], []⟩,
      ⟨.act 1 (.answer (answering 7 [])), [⟨8, some [9]⟩, ⟨7, some [1, 2]⟩], []⟩]
  refine Runs.of_admits events .start ⟨?_, ?_, ?_, ?_, ?_, ?_, ?_, trivial⟩
  · exact honest_quiet rfl .nil rfl
  · exact honest_answering rfl rfl .nil nofun nofun nofun
  · exact honest_quiet rfl .nil rfl
  · exact honest_quiet rfl (by decide) rfl
  · exact honest_quiet rfl (by decide) rfl
  · exact honest_quiet rfl (by decide) rfl
  · refine honest_answering (t := ⟨.uploadBlock [1, 2] "00.srb1", .working 0⟩) rfl rfl (by decide)
      ?_ nofun nofun
    rintro _ _ ⟨⟩
    exact List.mem_cons_of_mem _ List.mem_cons_self

/-- The block has come down again. -/
def fetchedState : SavedMessages where
  pool := ⟨{ sampleClient with
      stats := {
        blocksUploaded := 1, bytesUploaded := 2, blocksDownloaded := 1, bytesDownloaded := 2 } },
    uploadedState.pool.workers ++
      [⟨.downloadBlock 7, .returned 0 (.ok (.downloaded ⟨[1, 2], 7⟩))⟩]⟩
  history := uploadedState.history
  deleted := []

theorem fetchedState_reachable : Reachable .panics {} fetchedState := by
  let events : List SavedEvent :=
    [⟨.enter (.downloadBlock 7), [], []⟩, ⟨.act 2 .acquire, [], []⟩, ⟨.act 2 .lock, [], []⟩,
      ⟨.act 2 (.answer (answering 0 uploadedState.history)), [], []⟩]
  have hunique : uploadedState.history.Pairwise (·.id ≠ ·.id) := by decide
  refine Runs.of_admits events uploadedState_reachable
    ⟨?_, ?_, ?_, ?_, trivial⟩
  · exact honest_quiet rfl hunique rfl
  · exact honest_quiet rfl hunique rfl
  · exact honest_quiet rfl hunique rfl
  · exact honest_answering (t := ⟨.downloadBlock 7, .working 0⟩) rfl rfl hunique nofun
      (fun msg hmsg => ⟨hmsg, nofun⟩) nofun

/-- In every interleaving of the calls, and whatever other devices send and delete: no id is
    given out twice, and a download that succeeds returns the bytes of the upload that
    returned its id. The transport behaves as the file system counts on. -/
theorem client_is_remote (h : Reachable build config s) :
    (∀ (i j : ℕ) (t t' : TelegramTask) (b b' : ℤ × Bytes), s.pool.workers[i]? = some t →
      s.pool.workers[j]? = some t' → t.stored = some b → t'.stored = some b' → b.1 = b'.1 →
      i = j) ∧
    ∀ t ∈ s.pool.workers, ∀ b, t.fetched = some b →
      ∀ data, s.remote.message b.1 = some data → b.2 = data := by
  have hs := sound_of_reachable h
  refine ⟨hs.distinct, fun t ht b hb data hdata => ?_⟩
  obtain ⟨t', ht', hstored⟩ := mem_remote hdata
  have heq := eq_of_id hs.unique ((hs.witnessed t ht).fetched b hb)
    ((hs.witnessed t' ht').stored _ hstored) rfl
  exact Option.some.inj (congrArg SavedMessage.media heq)

theorem client_is_remote_sample :
    ∃ data, fetchedState.remote.message 7 = some data ∧ [1, 2] = data :=
  ⟨[1, 2], rfl, (client_is_remote fetchedState_reachable).2
    ⟨.downloadBlock 7, .returned 0 (.ok (.downloaded ⟨[1, 2], 7⟩))⟩ (by simp [fetchedState]) _ rfl
    _ rfl⟩

/-- The block is deleted, and another download has come to its turn. -/
def deletedState : SavedMessages where
  pool := ⟨{ sampleClient with
      downloadPermits := 4
      locked := true
      stats := { fetchedState.pool.shared.stats with messagesDeleted := 1 } },
    fetchedState.pool.workers ++
      [⟨.deleteMessage 7, .returned 0 (.ok .deleted)⟩, ⟨.downloadBlock 8, .working 0⟩]⟩
  history := uploadedState.history
  deleted := [7]

theorem deletedState_reachable : Reachable .panics {} deletedState := by
  let events : List SavedEvent :=
    [⟨.enter (.deleteMessage 7), [], []⟩, ⟨.act 3 .lock, [], []⟩,
      ⟨.act 3 (.answer (answering 0 [])), [], [7]⟩, ⟨.enter (.downloadBlock 8), [], []⟩,
      ⟨.act 4 .acquire, [], []⟩, ⟨.act 4 .lock, [], []⟩]
  have hunique : uploadedState.history.Pairwise (·.id ≠ ·.id) := by decide
  refine Runs.of_admits events fetchedState_reachable
    ⟨?_, ?_, ?_, ?_, ?_, ?_, trivial⟩
  · exact honest_quiet rfl hunique rfl
  · exact honest_quiet rfl hunique rfl
  · exact honest_answering (t := ⟨.deleteMessage 7, .working 0⟩) rfl rfl hunique nofun nofun
      (by decide)
  · exact honest_quiet rfl hunique rfl
  · exact honest_quiet rfl hunique rfl
  · exact honest_quiet rfl hunique rfl

/-- Once a deletion has returned, no download of the message succeeds any more. A message is
    asked for by the low 32 bits of its id, so this is the message itself for the ids of
    Telegram. -/
theorem deleted_stays_deleted (h : Reachable build config s) {t : TelegramTask}
    (ht : t ∈ s.pool.workers) {id : ℤ} (hid : id ∈ t.erased) (he : Honest build e s) {i : ℕ}
    {x x' : TelegramTask} (hx : s.pool.workers[i]? = some x) (hlive : x.fetched = none)
    (hx' : (step build e s).pool.workers[i]? = some x') {b : ℤ × Bytes}
    (hb : x'.fetched = some b) : b.1 ≠ id := by
  obtain rfl | ⟨a, c', hev, hadv⟩ := workers_step he hx hx'
  · rw [hlive] at hb
    cases hb
  · obtain ⟨-, hnone, -⟩ | ⟨-, -, hfetched, -⟩ :=
      advance_cases (fun net ha => he.served i net x (ha ▸ hev) hx) hadv
    · rw [hnone] at hb
      cases hb
    · rintro rfl
      have hgone := ((sound_of_reachable h).witnessed t ht).erased _ hid
      exact (hfetched b hb).2 (List.mem_append_right _ hgone)

theorem deleted_stays_deleted_sample : ∃ b : ℤ × Bytes, b = (8, [9]) ∧ b.1 ≠ 7 :=
  have he : Honest .panics ⟨.act 4 (.answer (answering 0 [⟨8, some [9]⟩])), [], []⟩ deletedState :=
    honest_answering (t := ⟨.downloadBlock 8, .working 0⟩) rfl rfl (by decide) nofun (by decide)
      nofun
  ⟨(8, [9]), rfl, deleted_stays_deleted deletedState_reachable
    (t := ⟨.deleteMessage 7, .returned 0 (.ok .deleted)⟩) (by simp [deletedState])
    (List.mem_singleton.2 (by decide)) he (i := 4) rfl rfl rfl rfl⟩

end

end SavedMessages
end TgCryptFs
