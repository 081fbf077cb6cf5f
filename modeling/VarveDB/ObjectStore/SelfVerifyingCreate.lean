import VarveDB.Library.Runs

/-! Conditional creates that carry a nonce, on a store that may lose answers and metadata. -/
namespace VarveDB.SelfVerifyingCreate
open Library.Runs List

abbrev Bytes := List UInt8

inductive ErrorKind where
  | generic
  | notFound
  | alreadyExists
  | precondition
  | notModified
  deriving DecidableEq

structure Error where
  kind : ErrorKind
  path : String
  source : String
  deriving DecidableEq

def Error.IsCollision (e : Error) : Prop :=
  e.kind = .alreadyExists ∨ e.kind = .precondition ∨ e.kind = .notModified

instance (e : Error) : Decidable e.IsCollision := inferInstanceAs (Decidable (_ ∨ _))

/-- An object of the store. `source` is who has stored it under which nonce, which the store does not
know; `nonce` is what the store has retained of it. -/
structure Object where
  payload : Bytes
  nonce : Option String
  version : Nat
  source : Option (Nat × String)
  deriving DecidableEq

inductive NonceCheck where
  | ours
  | foreign
  | absent

def nonceCheck (stored : Option String) (nonce : String) : NonceCheck :=
  match stored with
  | none => .absent
  | some stored => if stored = nonce then .ours else .foreign

inductive Phase where
  | creating
  | verifying (collision : Error) (attempts : Nat)
  | returned (collision : Option Error) (result : Except Error Nat)

structure Call where
  writer : Nat
  path : String
  payload : Bytes
  nonce : String
  phase : Phase

structure State where
  calls : List Call
  objects : String → Option Object
  history : List (String × Object)

def start : State := ⟨[], fun _ => none, []⟩

inductive Action where
  | putOpts (writer : Nat) (path : String) (payload : Bytes) (nonce : String)
  /-- The answer is lost, or a refusal is in the form given; one that the client no longer waits for may come at any
  time. -/
  | create (i : Nat) (retains : Bool) (answer : Option Error)
  | fail (i : Nat) (e : Error)
  | readBack (i : Nat)
  | readBackFails (i : Nat) (e : Error)
  | delete (path : String)
  | putUntagged (path : String) (payload : Bytes)

def readBackAttempts : Nat := 3

-- `display` is how the library prints its errors.
variable (display : Error → String) (location : String)

def conflict (source : Error) : Error := ⟨.alreadyExists, location, display source⟩

def unverified (collision source : Error) : Error :=
  ⟨.alreadyExists, location,
    s!"write conflict ({display collision}), and the attempt to verify the object failed: {display source}"⟩

def Call.verify (call : Call) (collision : Error) (existing : Object) : Except Error Nat :=
  match nonceCheck existing.nonce call.nonce with
  | .ours => .ok existing.version
  | .foreign => .error (conflict display call.path collision)
  | .absent => .error (conflict display call.path collision)

def Call.retryReadBack (call : Call) (collision : Error) (attempts : Nat) (e : Error) : Phase :=
  if e.kind = .notFound ∨ e.kind = .precondition ∨ attempts + 1 = readBackAttempts then
    .returned (some collision) (.error (unverified display call.path collision e))
  else .verifying collision (attempts + 1)

namespace State

variable (s : State)

def store (path : String) (payload : Bytes) (nonce : Option String) (source : Option (Nat × String)) : State :=
  let o : Object := ⟨payload, nonce, s.history.length, source⟩
  { s with objects := Function.update s.objects path (some o), history := s.history ++ [(path, o)] }

def setPhase (i : Nat) (call : Call) (phase : Phase) : State :=
  { s with calls := s.calls.set i { call with phase } }

def create (i : Nat) (call : Call) (retains : Bool) (answer : Option Error) : Option State :=
  match s.objects call.path, answer, call.phase with
  | none, none, _ =>
      some (s.store call.path call.payload (if retains then some call.nonce else none) (some (call.writer, call.nonce)))
  | none, some _, .creating =>
    some ((s.store call.path call.payload (if retains then some call.nonce else none)
      (some (call.writer, call.nonce))).setPhase i
      call (.returned none (.ok s.history.length)))
  | some _, none, _ => some s
  | some _, some refusal, .creating =>
    if refusal.IsCollision then some (s.setPhase i call (.verifying refusal 0)) else none
  | _, _, _ => none

def step : Action → Option State
  | .putOpts writer path payload nonce =>
      some { s with calls := s.calls ++ [⟨writer, path, payload, nonce, .creating⟩] }
  | .create i retains answer => s.calls[i]?.bind fun call => s.create i call retains answer
  | .fail i e => s.calls[i]?.bind fun call => match call.phase with
    | .creating => if e.IsCollision then none else some (s.setPhase i call (.returned none (.error e)))
    | _ => none
  | .readBack i => s.calls[i]?.bind fun call => match call.phase, s.objects call.path with
    | .verifying collision _, some existing =>
      some (s.setPhase i call (.returned (some collision) (call.verify display collision existing)))
    | _, _ => none
  | .readBackFails i e => s.calls[i]?.bind fun call => match call.phase with
    | .verifying collision attempts => some (s.setPhase i call (call.retryReadBack display collision attempts e))
    | _ => none
  | .delete path => some { s with objects := Function.update s.objects path none }
  | .putUntagged path payload => some (s.store path payload none none)

end State

/-- A nonce is used again by the writer that has used it only, for the same payload. -/
def Distinct (s : State) : Action → Prop
  | .putOpts writer _ payload nonce => ∀ c ∈ s.calls, c.nonce = nonce → c.writer = writer ∧ c.payload = payload
  | _ => True

instance (s : State) (a : Action) : Decidable (Distinct s a) := by
  cases a <;> dsimp only [Distinct] <;> infer_instance

def Call.Owns (c : Call) (o : Object) : Prop := o.source = some (c.writer, c.nonce) ∧ o.payload = c.payload

def Call.Justified (c : Call) (history : List (String × Object)) : Phase → Prop
  | .returned _ (.ok version) => ∃ o, (c.path, o) ∈ history ∧ o.version = version ∧ c.Owns o
  | .returned (some _) (.error e) => e.kind = .alreadyExists ∧ e.path = c.path
  | .returned none (.error e) => ¬ e.IsCollision
  | .verifying _ attempts => attempts < readBackAttempts
  | .creating => True

def State.senders (s : State) : List (Nat × String × Bytes) := s.calls.map fun c => (c.writer, c.nonce, c.payload)

structure State.Sound (s : State) : Prop where
  current : ∀ p o, s.objects p = some o → (p, o) ∈ s.history
  tagged : ∀ x ∈ s.history, ∀ n, x.2.nonce = some n → ∃ w, x.2.source = some (w, n)
  sent : ∀ x ∈ s.history, ∀ w n, x.2.source = some (w, n) → (w, n, x.2.payload) ∈ s.senders
  distinct : ∀ x ∈ s.senders, ∀ y ∈ s.senders, x.2.1 = y.2.1 → x = y
  justified : ∀ c ∈ s.calls, c.Justified s.history c.phase

def State.ReturnsOwn (s s' : State) : Prop := ∀ (j : Nat) (c : Call) (collision : Option Error) (version : Nat),
  s'.calls[j]? = some c → c.phase = .returned collision (.ok version) →
    s.calls[j]? = some c ∨ ∃ o, s'.objects c.path = some o ∧ c.Owns o

section
variable {display : Error → String} {s s' : State} {i version : Nat} {call : Call} {collision : Error}
  {existing o : Object} {phase : Phase} {path : String}

theorem Call.Justified.mono {history history' : List (String × Object)} (hsub : ∀ x ∈ history, x ∈ history')
    (h : call.Justified history phase) : call.Justified history' phase := by
  unfold Justified at *
  split at h
  · obtain ⟨o, ho, hrest⟩ := h
    exact ⟨o, hsub _ ho, hrest⟩
  all_goals exact h

private theorem Call.verify_eq_ok
    (h : call.verify display collision existing = .ok version) :
    existing.nonce = some call.nonce ∧ existing.version = version := by
  unfold verify nonceCheck at h
  cases hnonce : existing.nonce with
  | none => simp [hnonce] at h
  | some stored => by_cases heq : stored = call.nonce <;> simp_all

namespace State.Sound

variable (h : s.Sound)
include h

/-- The own nonce is found at objects of the writer only. -/
theorem owns_of_ours (hcall : call ∈ s.calls) {p : String} (ho : (p, o) ∈ s.history)
    (hours : o.nonce = some call.nonce) : call.Owns o := by
  obtain ⟨w, hsource⟩ := h.tagged _ ho _ hours
  have hsame := h.distinct _ (h.sent _ ho _ _ hsource) _ (mem_map_of_mem hcall) rfl
  simp only [Prod.mk.injEq, true_and] at hsame
  exact ⟨hsame.1 ▸ hsource, hsame.2⟩

theorem setPhase (hcall : s.calls[i]? = some call) (hphase : call.Justified s.history phase)
    (hown : ∀ collision version, phase = .returned collision (.ok version) →
      ∃ o, s.objects call.path = some o ∧ call.Owns o) :
    (s.setPhase i call phase).Sound ∧ s.ReturnsOwn (s.setPhase i call phase) := by
  obtain ⟨hi, hget⟩ := List.getElem?_eq_some_iff.mp hcall
  have hsenders : (s.setPhase i call phase).senders = s.senders := by
    rw [State.senders, State.setPhase, map_set, State.senders]
    conv_rhs => rw [← set_getElem_self hi, map_set, hget]
  refine ⟨⟨h.current, h.tagged, hsenders ▸ h.sent, hsenders ▸ h.distinct, fun c hc => ?_⟩,
    fun j c collision version hc hok => ?_⟩
  · rcases mem_or_eq_of_mem_set hc with hc | rfl
    · exact h.justified c hc
    · exact hphase
  · rw [State.setPhase, List.getElem?_set] at hc
    split_ifs at hc
    · cases hc
      exact .inr (hown collision version hok)
    · exact .inl hc

theorem store {payload : Bytes} {nonce : Option String} {source : Option (Nat × String)}
    (hnonce : ∀ n, nonce = some n → ∃ w, source = some (w, n))
    (hsource : ∀ w n, source = some (w, n) → (w, n, payload) ∈ s.senders) :
    (s.store path payload nonce source).Sound := by
  refine ⟨fun p o ho => ?_, forall_mem_snoc.mpr ⟨h.tagged, hnonce⟩, forall_mem_snoc.mpr ⟨h.sent, hsource⟩, h.distinct,
    fun c hc => ?_⟩
  · simp only [State.store, Function.update_apply] at ho
    split_ifs at ho with hp
    · cases ho
      exact hp ▸ mem_append_right _ mem_cons_self
    · exact mem_append_left _ (h.current p o ho)
  · exact (h.justified c hc).mono fun x hx => mem_append_left _ hx

/-- The object of a call is stored. -/
theorem storeOwn (hcall : call ∈ s.calls) (retains : Bool) :
    (s.store call.path call.payload (if retains then some call.nonce else none)
      (some (call.writer, call.nonce))).Sound := by
  refine h.store (fun n hn => ⟨call.writer, ?_⟩) fun w n hsource => ?_
  · split_ifs at hn
    exact congrArg _ (congrArg _ (some.inj hn))
  · cases hsource
    exact mem_map_of_mem hcall

section
variable (hcall : s.calls[i]? = some call)
include hcall

theorem create {retains : Bool} {answer : Option Error}
    (hcreate : s.create i call retains answer = some s') : s'.Sound ∧ s.ReturnsOwn s' := by
  have hmem : call ∈ s.calls := mem_of_getElem? hcall
  unfold State.create at hcreate
  split at hcreate <;> try cases hcreate
  · exact ⟨h.storeOwn hmem retains, fun _ _ _ _ hc _ => .inl hc⟩
  · exact (h.storeOwn hmem retains).setPhase hcall ⟨_, mem_append_right _ mem_cons_self, rfl, rfl, rfl⟩
      fun _ _ _ => ⟨_, Function.update_self .., rfl, rfl⟩
  · exact ⟨h, fun _ _ _ _ hc _ => .inl hc⟩
  · obtain ⟨-, ⟨⟩⟩ := ite_none_right_eq_some.mp hcreate
    exact h.setPhase hcall (by decide : 0 < readBackAttempts) nofun

/-- What is read back gives the call an object of its own, or an error for the collision. -/
theorem readBack (hexisting : s.objects call.path = some existing)
    (collision : Error) :
    (s.setPhase i call (.returned (some collision) (call.verify display collision existing))).Sound ∧
      s.ReturnsOwn (s.setPhase i call (.returned (some collision) (call.verify display collision existing))) := by
  cases hverify : call.verify display collision existing with
  | ok version =>
    obtain ⟨hours, rfl⟩ := Call.verify_eq_ok hverify
    have ho := h.current _ _ hexisting
    have howns := h.owns_of_ours (mem_of_getElem? hcall) ho hours
    exact h.setPhase hcall ⟨existing, ho, rfl, howns⟩ fun _ _ _ => ⟨existing, hexisting, howns⟩
  | error e =>
    have he : e = conflict display call.path collision := by
      unfold Call.verify at hverify; split at hverify <;> cases hverify <;> rfl
    subst he
    exact h.setPhase hcall ⟨rfl, rfl⟩ nofun

theorem retryReadBack {attempts : Nat} (hphase : call.phase = .verifying collision attempts) (e : Error) :
    (s.setPhase i call (call.retryReadBack display collision attempts e)).Sound ∧
      s.ReturnsOwn (s.setPhase i call (call.retryReadBack display collision attempts e)) := by
  unfold Call.retryReadBack
  split_ifs with hlast
  · exact h.setPhase hcall ⟨rfl, rfl⟩ nofun
  · have hmore : attempts + 1 ≠ readBackAttempts := fun heq => hlast (.inr (.inr heq))
    have hleft := h.justified call (mem_of_getElem? hcall)
    rw [hphase] at hleft
    exact h.setPhase hcall (Nat.lt_of_le_of_ne hleft hmore) nofun

end

theorem step {a : Action} (hguard : Distinct s a) (hstep : s.step display a = some s') :
    s'.Sound ∧ s.ReturnsOwn s' := by
  cases a
  case putOpts writer path payload nonce =>
    cases hstep
    have hfresh : ∀ x ∈ s.senders, x.2.1 = nonce → x = (writer, nonce, payload) := by
      intro x hx hnonce
      obtain ⟨c, hc, rfl⟩ := mem_map.mp hx
      obtain ⟨rfl, rfl⟩ := hguard c hc hnonce
      cases hnonce
      rfl
    refine ⟨⟨h.current, h.tagged, fun x hx w n hsource => ?_, ?_, forall_mem_snoc.mpr ⟨h.justified, trivial⟩⟩,
      fun j c collision version hc hok => ?_⟩
    · rw [State.senders, map_append]
      exact mem_append_left _ (h.sent x hx w n hsource)
    · rw [State.senders, map_append]
      intro x hx y hy hnonce
      rcases mem_snoc.mp hx with hx | rfl <;> rcases mem_snoc.mp hy with hy | rfl
      · exact h.distinct x hx y hy hnonce
      · exact hfresh x hx hnonce
      · exact (hfresh y hy hnonce.symm).symm
      · rfl
    · rw [List.getElem?_append] at hc
      split_ifs at hc
      · exact .inl hc
      · cases mem_singleton.mp (mem_of_getElem? hc)
        cases hok
  case delete path =>
    cases hstep
    refine ⟨{ h with current := fun p o ho => ?_ }, fun _ _ _ _ hc _ => .inl hc⟩
    simp only [Function.update_apply] at ho
    split_ifs at ho
    exact h.current p o ho
  case putUntagged path payload =>
    cases hstep
    exact ⟨h.store nofun nofun, fun _ _ _ _ hc _ => .inl hc⟩
  all_goals obtain ⟨call, hcall, hstep⟩ := bind_eq_some_iff.mp hstep
  case create => exact h.create hcall hstep
  all_goals split at hstep
  all_goals try cases hstep
  · obtain ⟨he, hstep⟩ := Option.ite_none_left_eq_some.mp hstep
    exact some.inj hstep ▸ h.setPhase hcall he nofun
  · next hexisting => exact h.readBack hcall hexisting _
  · next hphase => exact h.retryReadBack hcall hphase _

end State.Sound

def Stays (path : String) (o : Object) (s : State) (a : Action) : Prop := Distinct s a ∧ s.objects path = some o

/-- While an object stays at its path, only calls of its writer return a version there. -/
theorem State.Sound.returns_while_stays {as : List Action} (h : s.Sound)
    (hstays : Guarded (State.step display) (Stays path o) s as) (hrun : run (State.step display) s as = some s')
    (hend : s'.objects path = some o)
    {j : Nat} {c : Call} (hc : s'.calls[j]? = some c) (hpath : c.path = path) {collision : Option Error}
    (hok : c.phase = .returned collision (.ok version)) : s.calls[j]? = some c ∨ c.Owns o := by
  induction as generalizing s with
  | nil =>
    cases hrun
    exact .inl hc
  | cons a as ih =>
    obtain ⟨m, hstep, hrest⟩ := run_cons_eq_some.mp hrun
    have htail := hstays.tail hstep
    have hm : m.objects path = some o := by
      cases as with
      | nil => cases hrest; exact hend
      | cons b as => exact htail.head.2
    obtain ⟨hsound, hreturns⟩ := h.step hstays.head.1 hstep
    refine (ih hsound htail hrest).elim (fun hcm => ?_) .inr
    refine (hreturns j c collision version hcm hok).imp_right ?_
    rintro ⟨o', ho', howns⟩
    rw [hpath, hm] at ho'
    exact some.inj ho' ▸ howns

end

private theorem sound_start : start.Sound := ⟨nofun, nofun, nofun, nofun, nofun⟩

/-- A call returns Ok only if its writer has stored its nonce and payload; while an object stays, no call of another
writer returns Ok; and a call that has collided ends with Ok or `AlreadyExists`. -/
theorem marked_create_exclusive (display : Error → String) {as : List Action} {s : State}
    (hguard : Guarded (State.step display) Distinct start as) (hrun : run (State.step display) start as = some s) :
    (∀ c ∈ s.calls, ∀ collision version, c.phase = .returned collision (.ok version) →
      ∃ o, (c.path, o) ∈ s.history ∧ o.version = version ∧ c.Owns o) ∧
    (∀ path o bs s', Guarded (State.step display) (Stays path o) s bs → run (State.step display) s bs = some s' →
      s'.objects path = some o →
      ∀ (j : Nat) (c : Call), s'.calls[j]? = some c → c.path = path → o.source.map Prod.fst ≠ some c.writer →
        ∀ collision version, c.phase = .returned collision (.ok version) → s.calls[j]? = some c) ∧
    (∀ c ∈ s.calls, ∀ collision attempts, c.phase = .verifying collision attempts → attempts < readBackAttempts) ∧
    ∀ c ∈ s.calls, ∀ collision e, c.phase = .returned collision (.error e) → (collision.isSome ↔ e.IsCollision) ∧
      (collision.isSome → e.kind = .alreadyExists ∧ e.path = c.path) := by
  have h : s.Sound := invariant (fun h ha hstep => (h.step ha hstep).1) sound_start hguard hrun
  refine ⟨fun c hc collision version hok => ?_, ?_, fun c hc collision attempts hverifying => ?_,
    fun c hc collision e herror => ?_⟩
  · have hjust := h.justified c hc
    rwa [hok] at hjust
  · intro path o bs s' hstays hrun' hend j c hc hpath hother collision version hok
    refine (h.returns_while_stays hstays hrun' hend hc hpath hok).resolve_right fun howns => hother ?_
    rw [howns.1, Option.map_some]
  · have hjust := h.justified c hc
    rwa [hverifying] at hjust
  · have hjust := h.justified c hc
    rw [herror] at hjust
    cases collision with
    | none => exact ⟨iff_of_false (by simp) hjust, by simp⟩
    | some collision => exact ⟨iff_of_true rfl (.inl hjust.1), fun _ => hjust⟩

private def race : List Action :=
  [.putOpts 1 "f" [1] "a", .putOpts 2 "f" [2] "b", .create 0 true none, .create 1 true (some ⟨.precondition, "f", ""⟩),
    .create 0 true (some ⟨.alreadyExists, "f", ""⟩), .readBack 0, .readBackFails 1 ⟨.generic, "f", "timeout"⟩,
      .readBack 1]

private def Phase.answer : Phase → Option (Option Nat)
  | .returned _ result => some result.toOption
  | _ => none

theorem marked_create_two_writers : ∃ s, run (State.step Error.source) start race = some s ∧
    s.calls.map (fun c => c.phase.answer) = [some (some 0), some none] ∧
    ∀ c ∈ s.calls, ∀ collision version, c.phase = .returned collision (.ok version) →
      ∃ o, (c.path, o) ∈ s.history ∧ o.version = version ∧ c.Owns o := by
  exact exists_and (by decide +kernel) fun s hrun _ => (marked_create_exclusive _ (by decide +kernel) hrun).1

end VarveDB.SelfVerifyingCreate
