import Mq.Controller.Fsm

/-!
# Forwarding a proposal

`Controller.Apply` (`internal/controller/controller.go`) and the forwarding RPC
(`internal/controller/rpc.go`).  A node that does not lead the quorum sends its command
to the node that does, and tries again when it gets no answer.

One call is followed from its start.  Its attempts are kept in the order they were
made; each goes its own way after the caller has given it up.

## Main definitions

* `Stage`, `Request` — how far an attempt has come, and what it was answered.
* `Caller`, `Call`, `Event`, `Call.step` — the call with the network and the quorum
  around it.
* `Call.Settled` — an attempt is repeated only when it can no longer take effect.

## Main results

* `Call.Inv.step` — at most one attempt can take effect.
* `apply_at_most_once` — **a call whose attempts are settled before they are repeated
  takes effect at most once.**
* `lost_reply_applies_twice` — a lost reply makes the same call add its partitions twice.
-/

namespace Mq
namespace Controller

open Word Transition

/-! ### Attempts -/

/-- How far an attempt has come. -/
inductive Stage
  /-- The frame is on its way. -/
  | sent
  /-- The frame or the connection was lost before the target read the command. -/
  | lost
  /-- The target did not hand the command to the quorum. -/
  | turnedAway
  /-- The quorum has accepted the proposal. -/
  | accepted
  /-- The proposal is committed and applied. -/
  | applied
  deriving DecidableEq, Repr

/-- The attempt can still take effect, or has. -/
def Stage.Live : Stage → Prop
  | .sent | .accepted | .applied => True
  | .lost | .turnedAway => False

instance (st : Stage) : Decidable st.Live := by cases st <;> unfold Stage.Live <;> infer_instance

/-- What the target answers. -/
inductive Reply
  | ok
  /-- `controller: not leader` -/
  | notLeader
  /-- The error of the state machine. -/
  | refused (e : Err)
  /-- The proposal failed in the quorum, for all that the target knows. -/
  | failed
  deriving DecidableEq, Repr

/-- The answer of the state machine. -/
def Reply.ofErr : Option Err → Reply
  | none => .ok
  | some e => .refused e

/-- No error of the state machine reads like the one of a node that does not lead. -/
theorem Reply.ofErr_ne_notLeader (e : Option Err) : Reply.ofErr e ≠ .notLeader := by
  cases e <;> simp [Reply.ofErr]

structure Request where
  stage : Stage
  reply : Option Reply
  deriving DecidableEq, Repr

/-- How a call ends. -/
inductive Outcome
  | ok
  | refused (e : Err)
  | failed
  /-- `controller: leader unavailable`, when the time is up. -/
  | unavailable
  deriving DecidableEq, Repr

/-- What the caller is doing. -/
inductive Caller
  | trying
  /-- It leads the quorum and waits for its own proposal. -/
  | proposing (i : ℕ)
  /-- It waits for the answer to a request. -/
  | forwarding (i : ℕ)
  | done (o : Outcome)
  deriving DecidableEq, Repr

/-! ### The call and its surroundings -/

/-- One call with its attempts, the committed metadata, and how often the command was
applied for this call. -/
structure Call where
  command : Command
  caller : Caller
  requests : List Request
  fsm : MetaState
  applied : ℕ

inductive Event
  /-- No leader is known, it cannot be reached, or the frame cannot be written. -/
  | unavailable (expired : Bool)
  /-- The leader has no address, or the caller was deposed just now. -/
  | giveUp
  /-- The caller leads the quorum, which accepts the proposal or does not. -/
  | proposeLocal (accepted : Bool)
  /-- The frame is written. -/
  | forward
  | lose (i : ℕ)
  /-- The target reads the command.  If it leads, it proposes it to the quorum. -/
  | serve (i : ℕ) (leads accepted : Bool)
  /-- An accepted proposal is committed. -/
  | commit (i : ℕ)
  /-- The target is deposed while it waits; the proposal may still be committed. -/
  | depose (i : ℕ)
  /-- The caller gets its answer. -/
  | reply (expired : Bool)
  /-- The connection is reset, times out or brings no readable answer. -/
  | breakOff (expired : Bool)
  /-- Another command is committed. -/
  | other (cmd : Command)
  deriving DecidableEq, Repr

namespace Call

def start (fsm : MetaState) (cmd : Command) : Call := ⟨cmd, .trying, [], fsm, 0⟩

/-- After a failure that may pass, the caller tries again unless its time is up. -/
def retry (c : Call) (expired : Bool) : Call :=
  { c with caller := if expired then .done .unavailable else .trying }

def update (c : Call) (i : ℕ) (r : Request) : Call := { c with requests := c.requests.set i r }

/-- How the caller takes an answer. -/
def take (c : Call) (expired : Bool) : Reply → Call
  | .ok => { c with caller := .done .ok }
  | .notLeader => c.retry expired
  | .refused e => { c with caller := .done (.refused e) }
  | .failed => { c with caller := .done .failed }

def step (c : Call) : Event → Call
  | .unavailable expired =>
    match c.caller with
    | .trying => c.retry expired
    | _ => c
  | .giveUp =>
    match c.caller with
    | .trying => { c with caller := .done .failed }
    | _ => c
  | .proposeLocal accepted =>
    match c.caller with
    | .trying =>
      if accepted then
        { c with
          caller := .proposing c.requests.length
          requests := c.requests ++ [⟨.accepted, none⟩] }
      else { c with caller := .done .failed }
    | _ => c
  | .forward =>
    match c.caller with
    | .trying =>
      { c with
        caller := .forwarding c.requests.length
        requests := c.requests ++ [⟨.sent, none⟩] }
    | _ => c
  | .lose i =>
    match c.requests[i]? with
    | some ⟨.sent, _⟩ => c.update i ⟨.lost, none⟩
    | _ => c
  | .serve i leads accepted =>
    match c.requests[i]? with
    | some ⟨.sent, _⟩ =>
      if ¬ leads then c.update i ⟨.turnedAway, some .notLeader⟩
      else if accepted then c.update i ⟨.accepted, none⟩
      else c.update i ⟨.turnedAway, some .failed⟩
    | _ => c
  | .commit i =>
    match c.requests[i]? with
    | some ⟨.accepted, reply⟩ =>
      let (fsm, err) := c.fsm.applyLocked c.command
      { c.update i ⟨.applied, some (reply.getD (Reply.ofErr err))⟩ with
        fsm := fsm
        applied := c.applied + 1 }
    | _ => c
  | .depose i =>
    match c.requests[i]? with
    | some ⟨.accepted, none⟩ => c.update i ⟨.accepted, some .failed⟩
    | _ => c
  | .reply expired =>
    match c.caller with
    | .proposing i | .forwarding i =>
      match c.requests[i]? with
      | some ⟨_, some r⟩ => c.take expired r
      | _ => c
    | _ => c
  | .breakOff expired =>
    match c.caller with
    | .forwarding _ => c.retry expired
    | _ => c
  | .other cmd => { c with fsm := c.fsm.step cmd }

/-- A request whose connection broke off is repeated only when it was lost or turned
away. -/
def Settled (c : Call) : Event → Prop
  | .breakOff false =>
    match c.caller with
    | .forwarding i => (c.requests[i]?).all (fun r => ¬ r.stage.Live) = true
    | _ => True
  | _ => True

instance (c : Call) (e : Event) : Decidable (c.Settled e) := by
  unfold Settled
  split
  · split <;> infer_instance
  · infer_instance

/-! ### At most one attempt is live -/

/-- The attempt `i` can still take effect, or has. -/
def Live (c : Call) (i : ℕ) : Prop := ∃ r, c.requests[i]? = some r ∧ r.stage.Live

/-- The attempt that the caller waits for. -/
def Awaits (c : Call) (i : ℕ) : Prop := c.caller = .proposing i ∨ c.caller = .forwarding i

structure Inv (c : Call) : Prop where
  unique : ∀ i j, c.Live i → c.Live j → i = j
  once : c.applied ≤ 1
  /-- Before an attempt has taken effect, no other one has. -/
  pending : ∀ (i : ℕ) (r : Request), c.requests[i]? = some r →
    r.stage = .sent ∨ r.stage = .accepted → c.applied = 0
  /-- What has taken effect is one of the attempts. -/
  counted : 0 < c.applied → ∃ i, c.Live i
  trying : c.caller = .trying → ∀ i, ¬ c.Live i
  awaited : ∀ i, c.Awaits i → ∀ j, c.Live j → j = i
  /-- Only a target that has not proposed the command says that it does not lead. -/
  notLeader : ∀ (i : ℕ) (r : Request), c.requests[i]? = some r → r.reply = some .notLeader →
    ¬ r.stage.Live

variable {c : Call}

theorem inv_start (fsm : MetaState) (cmd : Command) : (start fsm cmd).Inv := by
  have hnone : ∀ i, ¬ (start fsm cmd).Live i := by
    rintro i ⟨r, hr, -⟩
    exact absurd hr (by simp [start])
  refine ⟨fun i j hi => absurd hi (hnone i), Nat.zero_le 1, fun _ _ _ _ => rfl, ?_,
    fun _ => hnone, ?_, ?_⟩
  · intro h; exact absurd h (Nat.lt_irrefl 0)
  · rintro i (h | h) <;> cases h
  · intro i r hr
    exact absurd hr (by simp [start])

theorem getElem?_update {i j : ℕ} {r r' : Request} (h : (c.update i r).requests[j]? = some r') :
    j = i ∧ r' = r ∨ j ≠ i ∧ c.requests[j]? = some r' := by
  have h' : (c.requests.set i r)[j]? = some r' := h
  rw [List.getElem?_set] at h'
  split at h'
  · next hij =>
    split at h'
    · cases h'; exact .inl ⟨hij.symm, rfl⟩
    · cases h'
  · next hij => exact .inr ⟨Ne.symm hij, h'⟩

/-- Progress of a request: it does not come alive again, and does not go back to a stage
before its effect. -/
theorem Inv.update (h : c.Inv) {i : ℕ} {r₀ r : Request} (hr₀ : c.requests[i]? = some r₀)
    (hpending : r₀.stage = .sent ∨ r₀.stage = .accepted)
    (hreply : r.reply = some .notLeader → ¬ r.stage.Live) : (c.update i r).Inv := by
  have hlive : ∀ j, (c.update i r).Live j → c.Live j := by
    rintro j ⟨r', hr', hl⟩
    rcases getElem?_update hr' with ⟨rfl, -⟩ | ⟨-, hr'⟩
    · refine ⟨r₀, hr₀, ?_⟩
      rcases hpending with hs | hs <;> rw [hs] <;> trivial
    · exact ⟨r', hr', hl⟩
  have hzero : c.applied = 0 := h.pending i r₀ hr₀ hpending
  refine ⟨fun j k hj hk => h.unique j k (hlive j hj) (hlive k hk), h.once, fun _ _ _ _ => hzero, ?_,
    fun htry j hj => h.trying htry j (hlive j hj),
    fun k hk j hj => h.awaited k hk j (hlive j hj), ?_⟩
  · intro hpos
    exact absurd hzero (Nat.pos_iff_ne_zero.mp hpos)
  · intro j r' hr' hnl
    rcases getElem?_update hr' with ⟨-, rfl⟩ | ⟨-, hr'⟩
    · exact hreply hnl
    · exact h.notLeader j r' hr' hnl

/-- A new attempt is made when no other one is live. -/
theorem Inv.attempt (h : c.Inv) (htry : c.caller = .trying) {r : Request} (hr : r.reply = none)
    {caller : Caller}
    (hcaller : caller = .proposing c.requests.length ∨ caller = .forwarding c.requests.length) :
    Inv { c with caller := caller, requests := c.requests ++ [r] } := by
  have hnew : ∀ j r', (c.requests ++ [r])[j]? = some r' →
      j = c.requests.length ∧ r' = r ∨ c.requests[j]? = some r' := by
    intro j r' hj
    rw [List.getElem?_append] at hj
    split at hj
    · exact .inr hj
    · rw [List.getElem?_singleton] at hj
      split at hj
      · cases hj; exact .inl ⟨by omega, rfl⟩
      · cases hj
  have hlive : ∀ j, Live { c with caller := caller, requests := c.requests ++ [r] } j →
      j = c.requests.length := by
    rintro j ⟨r', hr', hl⟩
    rcases hnew j r' hr' with ⟨hj, -⟩ | hr'
    · exact hj
    · exact absurd ⟨r', hr', hl⟩ (h.trying htry j)
  have hzero : c.applied = 0 := by
    by_contra hne
    obtain ⟨i, hi⟩ := h.counted (Nat.pos_iff_ne_zero.mpr hne)
    exact h.trying htry i hi
  refine ⟨fun i j hi hj => (hlive i hi).trans (hlive j hj).symm, h.once, fun _ _ _ _ => hzero, ?_,
    ?_, ?_, ?_⟩
  · intro hpos
    exact absurd hzero (Nat.pos_iff_ne_zero.mp hpos)
  · intro hct
    rcases hcaller with rfl | rfl <;> cases hct
  · intro i hi j hj
    rw [hlive j hj]
    rcases hcaller with rfl | rfl <;> rcases hi with hi | hi <;> cases hi <;> rfl
  · intro j r' hr' hnl
    rcases hnew j r' hr' with ⟨-, rfl⟩ | hr'
    · rw [hr] at hnl; cases hnl
    · exact h.notLeader j r' hr' hnl

/-- A call that has ended makes no further attempt. -/
theorem Inv.done (h : c.Inv) (o : Outcome) : Inv { c with caller := .done o } := by
  refine ⟨h.unique, h.once, h.pending, h.counted, ?_, ?_, h.notLeader⟩
  · intro hct; cases hct
  · rintro i (hi | hi) <;> cases hi

/-- The caller may try again when no attempt is live. -/
theorem Inv.retry (h : c.Inv) {expired : Bool} (hdead : expired = false → ∀ i, ¬ c.Live i) :
    (c.retry expired).Inv := by
  cases expired with
  | true => exact h.done .unavailable
  | false =>
    refine ⟨h.unique, h.once, h.pending, h.counted, fun _ => hdead rfl, ?_, h.notLeader⟩
    rintro i (hi | hi) <;> cases hi

theorem Inv.commit (h : c.Inv) {i : ℕ} {reply : Option Reply}
    (hr : c.requests[i]? = some ⟨.accepted, reply⟩) (r : Reply) (hne : r ≠ .notLeader)
    (fsm : MetaState) :
    Inv { c.update i ⟨.applied, some r⟩ with fsm := fsm, applied := c.applied + 1 } := by
  have hzero : c.applied = 0 := h.pending i _ hr (.inr rfl)
  have hi : c.Live i := ⟨_, hr, trivial⟩
  have hupd : (c.update i ⟨.applied, some r⟩).Inv :=
    h.update hr (.inr rfl) fun heq => absurd (Option.some.inj heq) hne
  refine ⟨hupd.unique, ?_, ?_, ?_, hupd.trying, hupd.awaited, hupd.notLeader⟩
  · show c.applied + 1 ≤ 1
    omega
  · -- another pending attempt would be live besides this one
    intro j r' hr' hpend
    rcases getElem?_update hr' with ⟨-, rfl⟩ | ⟨hne', hr'⟩
    · rcases hpend with hs | hs <;> cases hs
    · have hj : c.Live j := ⟨r', hr', by rcases hpend with hs | hs <;> rw [hs] <;> trivial⟩
      exact absurd (h.unique j i hj hi) hne'
  · intro _
    exact ⟨i, _, List.getElem?_set_self (List.getElem?_eq_some_iff.mp hr).1, trivial⟩

/-- What the caller makes of an answer. -/
theorem Inv.take (h : c.Inv) {i : ℕ} (hawaits : c.Awaits i) {st : Stage} {r : Reply}
    (hr : c.requests[i]? = some ⟨st, some r⟩) (expired : Bool) : (c.take expired r).Inv := by
  cases r with
  | ok | refused | failed => exact h.done _
  | notLeader =>
    refine h.retry fun _ j hj => ?_
    -- the only attempt that could be live is the one that was turned away
    rw [h.awaited i hawaits j hj] at hj
    obtain ⟨r', hr', hl⟩ := hj
    cases hr.symm.trans hr'
    exact h.notLeader i _ hr rfl hl

/-- **Whatever happens, at most one attempt is live**, if a request is settled before it
is repeated. -/
theorem Inv.step (h : c.Inv) {e : Event} (he : c.Settled e) : (c.step e).Inv := by
  cases e with
  | unavailable expired =>
    rw [Call.step]
    split
    · next htry => exact h.retry fun _ => h.trying htry
    · exact h
  | giveUp =>
    rw [Call.step]
    split
    · exact h.done _
    · exact h
  | proposeLocal accepted =>
    rw [Call.step]
    split
    · next htry =>
      split
      · exact h.attempt htry rfl (.inl rfl)
      · exact h.done _
    · exact h
  | forward =>
    rw [Call.step]
    split
    · next htry => exact h.attempt htry rfl (.inr rfl)
    · exact h
  | lose i =>
    rw [Call.step]
    split
    · next hr => exact h.update hr (.inl rfl) fun _ => id
    · exact h
  | serve i leads accepted =>
    rw [Call.step]
    split
    · next hr =>
      split
      · exact h.update hr (.inl rfl) fun _ => id
      · split
        · exact h.update hr (.inl rfl) fun hnl => by cases hnl
        · exact h.update hr (.inl rfl) fun _ => id
    · exact h
  | commit i =>
    rw [Call.step]
    split
    · next reply hr =>
      refine h.commit hr _ ?_ _
      cases hreply : reply with
      | none => exact Reply.ofErr_ne_notLeader _
      | some r =>
        -- an accepted request was not answered that the target does not lead
        rintro rfl
        exact h.notLeader i _ hr hreply trivial
    · exact h
  | depose i =>
    rw [Call.step]
    split
    · next hr => exact h.update hr (.inr rfl) fun hnl => by cases hnl
    · exact h
  | reply expired =>
    rw [Call.step]
    split
    · next i hcaller =>
      split
      · next hr => exact h.take (.inl hcaller) hr expired
      · exact h
    · next i hcaller =>
      split
      · next hr => exact h.take (.inr hcaller) hr expired
      · exact h
    · exact h
  | breakOff expired =>
    rw [Call.step]
    split
    · next i hcaller =>
      refine h.retry fun hexp j hj => ?_
      rw [h.awaited i (.inr hcaller) j hj] at hj
      obtain ⟨r, hr, hl⟩ := hj
      rw [hexp, Settled, hcaller] at he
      dsimp only at he
      rw [hr, Option.all_some, decide_eq_true_eq] at he
      exact he hl
    · exact h
  | other cmd => exact ⟨h.unique, h.once, h.pending, h.counted, h.trying, h.awaited, h.notLeader⟩

end Call

/-- **One call takes effect at most once**, whatever the connections and the leadership
do, if a request whose connection broke off is only repeated when it was lost or turned
away. -/
theorem apply_at_most_once (fsm : MetaState) (cmd : Command) (es : List Event)
    (h : Along Call.step Call.Settled (Call.start fsm cmd) es) :
    Always Call.step (fun c => c.applied ≤ 1) (Call.start fsm cmd) es := by
  have hinv : Always Call.step Call.Inv (Call.start fsm cmd) es :=
    h.always (Call.inv_start fsm cmd) fun c e hc he => hc.step he
  exact hinv.mono fun c hc => hc.once

/-- A topic with one partition. -/
def onePartition : MetaState :=
  MetaState.empty.step { type := .createTopic, topic := [116], replicas := [[0]] }

/-- A call that adds one partition. -/
def addPartition : Command :=
  { type := .createPartitions, topic := [116], replicas := [[1]] }

theorem apply_at_most_once_deposed :
    Always Call.step (fun c => c.applied ≤ 1) (Call.start onePartition addPartition)
      [.forward, .lose 0, .breakOff false, .forward, .serve 1 false false, .reply false,
        .forward, .serve 2 true true, .commit 2, .reply false] :=
  apply_at_most_once onePartition addPartition _ (by decide +kernel)

/-- The first request is committed, but the connection breaks before the answer. -/
theorem lost_reply_applies_twice :
    let c := run Call.step (Call.start onePartition addPartition)
      [.forward, .serve 0 true true, .commit 0, .breakOff false, .forward, .serve 1 true true,
        .commit 1, .reply false]
    c.caller = .done .ok ∧ c.applied = 2 ∧
      (c.fsm.parts [116]).map (·.replicas) = [[0], [1], [1]] := by
  decide +kernel

end Controller
end Mq
