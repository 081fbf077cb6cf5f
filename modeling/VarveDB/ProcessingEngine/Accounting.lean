import VarveDB.ProcessingEngine.Scheduler

/-! Where the invocations are: each one is in one queue, in flight or gone. -/
namespace VarveDB.Scheduler
open Library Runs List IndexMap QueuedInvocation

def queuedIn (states : IndexMap Nat TriggerState) : List Invocation :=
  states.values.flatMap fun st => st.queue.map QueuedInvocation.invocation

variable {id : Nat} (n : Nat)

private theorem queuedIn_perm {states : IndexMap Nat TriggerState} {st : TriggerState}
    (h : states.lookup id = some st) :
    (queuedIn states).Perm (st.queue.map invocation ++ queuedIn (states.remove id)) :=
  (values_perm h).flatMap_right _

private theorem queuedIn_put_perm (states : IndexMap Nat TriggerState) (id : Nat) (st : TriggerState) :
    (queuedIn (states.put id st)).Perm (st.queue.map invocation ++ queuedIn (states.remove id)) :=
  (values_put_perm states id st).flatMap_right _

theorem mem_queuedIn {states : IndexMap Nat TriggerState} {j : Invocation} :
    j ∈ queuedIn states ↔ ∃ id st, states.lookup id = some st ∧ ∃ q ∈ st.queue, q.invocation = j := by
  simp only [queuedIn, mem_flatMap, mem_values, mem_map]
  constructor
  · rintro ⟨st, ⟨id, hst⟩, q, hq, rfl⟩
    exact ⟨id, st, hst, q, hq, rfl⟩
  · rintro ⟨id, st, hst, q, hq, rfl⟩
    exact ⟨st, ⟨id, hst⟩, q, hq, rfl⟩

def ofRuntime (id : Nat) (l : List Invocation) : Nat := l.countP fun j => j.runtime.id = id

def ofNumber (l : List Invocation) : Nat := l.countP fun j => j.number = n

@[simp]
theorem ofRuntime_append (id : Nat) (l l' : List Invocation) :
    ofRuntime id (l ++ l') = ofRuntime id l + ofRuntime id l' :=
  countP_append

@[simp]
theorem ofRuntime_cons (id : Nat) (j : Invocation) (l : List Invocation) :
    ofRuntime id (j :: l) = ofRuntime id l + if j.runtime.id = id then 1 else 0 := by simp [ofRuntime, countP_cons]

@[simp]
theorem ofNumber_append (l l' : List Invocation) : ofNumber n (l ++ l') = ofNumber n l + ofNumber n l' :=
  countP_append

@[simp]
theorem ofNumber_cons (j : Invocation) (l : List Invocation) :
    ofNumber n (j :: l) = ofNumber n l + if j.number = n then 1 else 0 := by simp [ofNumber, countP_cons]

@[simp]
theorem ofNumber_nil : ofNumber n [] = 0 := rfl

variable {l : List Invocation} (s : State) {runtime : TriggerRuntime}

theorem ofRuntime_pos : 0 < ofRuntime id l ↔ ∃ j ∈ l, j.runtime.id = id := by
  simp [ofRuntime, countP_pos_iff]

private theorem ofRuntime_of_forall (h : ∀ j ∈ l, j.runtime.id = id) : ofRuntime id l = l.length := by
  rw [ofRuntime, countP_eq_length]
  exact fun j hj => by simpa using h j hj

theorem ofRuntime_of_forall_ne (h : ∀ j ∈ l, j.runtime.id ≠ id) : ofRuntime id l = 0 := by
  rw [ofRuntime, countP_eq_zero]
  exact fun j hj => by simpa using h j hj

structure Accounted (states : IndexMap Nat TriggerState) (inFlight finished : List Invocation) (next : Nat)
    (cancelled : List Nat) (runtimes : List TriggerRuntime) (released : List (Nat × Nat)) : Prop where
  keyed : ∀ id st, states.lookup id = some st →
    st.runtime.id = id ∧ st.runtime ∈ runtimes ∧ ∀ q ∈ st.queue, q.invocation.runtime = st.runtime
  counted : ∀ id st, states.lookup id = some st → st.inFlight = ofRuntime id inFlight
  bounded : ∀ id st, states.lookup id = some st → st.inFlight ≤ st.runtime.maxConcurrency
  hosted : ∀ j ∈ inFlight, ∃ st, states.lookup j.runtime.id = some st ∧ j.runtime = st.runtime
  stopping : ∀ id st, states.lookup id = some st → st.shuttingDown = true → id ∈ cancelled ∧ st.queue = []
  placed : ∀ n, ofNumber n (queuedIn states ++ inFlight ++ finished) = if n < next then 1 else 0
  released : ∀ e ∈ released, e.2 ∈ cancelled ∧ states.lookup e.2 = none
  unique : runtimes.Pairwise fun r r' => r.id < r'.id

namespace Accounted
variable {states : IndexMap Nat TriggerState} {inFlight inFlight' finished finished' : List Invocation}
  {next next' : Nat}
  {cancelled : List Nat} {runtimes : List TriggerRuntime} {released : List (Nat × Nat)} {id : Nat}
  {st st' : TriggerState} {j : Invocation}

section
variable (h : Accounted states inFlight finished next cancelled runtimes released)
include h

theorem perm (hperm : inFlight'.Perm inFlight) :
    Accounted states inFlight' finished next cancelled runtimes released where
  __ := h
  counted id st hst := (h.counted id st hst).trans (hperm.countP_eq _).symm
  hosted j hj := h.hosted j (hperm.mem_iff.mp hj)
  placed n := by
    rw [← h.placed n]
    exact ((hperm.append_left _).append_right _).countP_eq _

/-- An id stands for one runtime. -/
theorem runtime_eq {r r' : TriggerRuntime} (hr : r ∈ runtimes) (hr' : r' ∈ runtimes) (hid : r.id = r'.id) : r = r' := by
  by_contra hne
  have hunique : runtimes.Pairwise fun r r' => r.id ≠ r'.id := h.unique.imp fun hlt => Nat.ne_of_lt hlt
  have : Std.Symm fun r r' : TriggerRuntime => r.id ≠ r'.id := ⟨fun _ _ hne => Ne.symm hne⟩
  exact hunique.forall hr hr' hne hid

theorem cancel (id : Nat) : Accounted states inFlight finished next (id :: cancelled) runtimes released where
  __ := h
  stopping id st hst hdown := (h.stopping id st hst hdown).imp_left (mem_cons_of_mem _)
  released e he := (h.released e he).imp_left (mem_cons_of_mem _)

theorem register (hfresh : ∀ r ∈ runtimes, r.id < runtime.id) :
    Accounted states inFlight finished next cancelled (runtimes ++ [runtime]) released where
  __ := h
  keyed id st hst := (h.keyed id st hst).imp_right fun hst => hst.imp_left (mem_append_left _)
  unique := pairwise_append.mpr ⟨h.unique, pairwise_singleton .., fun r hr _ hr' =>
    mem_singleton.mp hr' ▸ hfresh r hr⟩

variable (hst : states.lookup id = some st)
include hst

variable (hruntime : st'.runtime = st.runtime)
include hruntime

/-- What has to be seen when one state changes, with the lists of what is in flight and gone. -/
theorem put (hqueue : ∀ q ∈ st'.queue, q.invocation.runtime = st.runtime)
    (hcounted : st'.inFlight = ofRuntime id inFlight')
    (hothers : ∀ id', id' ≠ id → ofRuntime id' inFlight' = ofRuntime id' inFlight)
    (hbounded : st'.inFlight ≤ st.runtime.maxConcurrency)
    (hhosted : ∀ j ∈ inFlight', j ∈ inFlight ∨ j.runtime = st.runtime)
    (hstopping : st'.shuttingDown = true → id ∈ cancelled ∧ st'.queue = [])
    (hplaced : ∀ n, ofNumber n (st'.queue.map invocation ++ inFlight' ++ finished') + (if n < next then 1 else 0) =
      ofNumber n (st.queue.map invocation ++ inFlight ++ finished) + if n < next' then 1 else 0) :
    Accounted (states.put id st') inFlight' finished' next' cancelled runtimes released := by
  obtain ⟨hid, hmem, -⟩ := h.keyed id st hst
  refine ⟨forall_put ?_ fun id' x _ => h.keyed id' x, forall_put hcounted fun id' x hne hx => ?_,
    forall_put (hruntime ▸ hbounded) fun id' x _ => h.bounded id' x, fun j hj => ?_,
    forall_put hstopping fun id' x _ => h.stopping id' x, fun n => ?_, fun e he => ?_, h.unique⟩
  · exact ⟨by rw [hruntime, hid], hruntime ▸ hmem, by rw [hruntime]; exact hqueue⟩
  · rw [h.counted id' x hx, hothers id' hne]
  · rw [lookup_put]
    split_ifs with heq
    · refine ⟨st', rfl, ?_⟩
      rcases hhosted j hj with hj | hj
      · obtain ⟨x, hx, hruntime'⟩ := h.hosted j hj
        rw [heq, hst] at hx
        rw [hruntime', ← some.inj hx, hruntime]
      · rw [hj, hruntime]
    · rcases hhosted j hj with hj | hj
      · exact h.hosted j hj
      · exact absurd (by rw [hj, hid]) heq
  · have hold := h.placed n
    have hnew := hplaced n
    have hperm := (queuedIn_perm hst).countP_eq fun j : Invocation => decide (j.number = n)
    have hperm' := (queuedIn_put_perm states id st').countP_eq fun j : Invocation => decide (j.number = n)
    rw [countP_append] at hperm hperm'
    simp only [ofNumber_append] at hold hnew ⊢
    simp only [ofNumber] at hold hnew ⊢
    omega
  · obtain ⟨hcancelled, hnone⟩ := h.released e he
    refine ⟨hcancelled, ?_⟩
    rw [lookup_put, if_neg, hnone]
    rintro heq
    cases (heq ▸ hnone).symm.trans hst

/-- Something that no list depends on changes. -/
theorem same (hqueue : st'.queue = st.queue)
    (hinFlight : st'.inFlight = st.inFlight) (hstopping : st'.shuttingDown = true → id ∈ cancelled ∧ st.queue = []) :
    Accounted (states.put id st') inFlight finished next cancelled runtimes released :=
  h.put hst hruntime (hqueue ▸ (h.keyed id st hst).2.2) (hinFlight.trans (h.counted id st hst)) (fun _ _ => rfl)
    (hinFlight ▸ h.bounded id st hst) (fun _ => .inl) (hqueue ▸ hstopping) fun n => by rw [hqueue]

end

/-- An invocation in flight leaves. -/
theorem leave (h : Accounted states (j :: inFlight) finished next cancelled runtimes released)
    (hst : states.lookup j.runtime.id = some st) :
    Accounted (states.put j.runtime.id { st with inFlight := st.inFlight - 1 }) inFlight
      (finished ++ [j]) next cancelled
      runtimes released := by
  have hcounted := h.counted _ st hst
  have hbounded := h.bounded _ st hst
  rw [ofRuntime_cons, if_pos rfl] at hcounted
  refine h.put hst rfl (h.keyed _ st hst).2.2 ?_ (fun id' hne => ?_) ?_ (fun _ hj => .inl (mem_cons_of_mem _ hj))
    (h.stopping _ st hst) fun n => ?_
  · simp only
    omega
  · rw [ofRuntime_cons, if_neg (Ne.symm hne), Nat.add_zero]
  · simp only
    omega
  · simp only [ofNumber_append, ofNumber_cons, ofNumber_nil]
    omega

section
variable (h : Accounted states inFlight finished next cancelled runtimes released)
include h

/-- The queue of a cancelled runtime is given up for good. -/
theorem stop (hst : states.lookup id = some st) (hcancelled : id ∈ cancelled) :
    Accounted (states.put id { st with queue := [], shuttingDown := true }) inFlight
      (finished ++ st.queue.map invocation) next cancelled runtimes released :=
  h.put hst rfl nofun (h.counted id st hst) (fun _ _ => rfl) (h.bounded id st hst) (fun _ => .inl)
    (fun _ => ⟨hcancelled, rfl⟩) fun n => by
      simp only [map_nil, nil_append, ofNumber_append]
      omega

/-- The first part of a queue is put in flight. -/
theorem take (hst : states.lookup id = some st) {ready rest : List QueuedInvocation} (hqueue : st.queue = ready ++ rest)
    (hbounded : st.inFlight + ready.length ≤ st.runtime.maxConcurrency) (hdown : st.shuttingDown = false) :
    Accounted (states.put id { st with inFlight := st.inFlight + ready.length, queue := rest })
      (ready.map invocation ++ inFlight) finished next cancelled runtimes released := by
  obtain ⟨hid, -, hown⟩ := h.keyed id st hst
  rw [hqueue] at hown
  have hready : ∀ j ∈ ready.map invocation, j.runtime = st.runtime := by
    intro j hj
    obtain ⟨q, hq, rfl⟩ := mem_map.mp hj
    exact hown q (mem_append_left _ hq)
  refine h.put hst rfl (fun q hq => hown q (mem_append_right _ hq)) ?_ (fun id' hne => ?_) hbounded (fun j hj => ?_)
    (fun hdown' => ?_) fun n => ?_
  · rw [ofRuntime_append, ofRuntime_of_forall fun j hj => by rw [hready j hj, hid], length_map, h.counted id st hst]
    exact Nat.add_comm _ _
  · rw [ofRuntime_append, ofRuntime_of_forall_ne fun j hj => by rw [hready j hj, hid]; exact Ne.symm hne, Nat.zero_add]
  · exact (mem_append.mp hj).elim (fun hj => .inr (hready j hj)) .inl
  · cases hdown.symm.trans hdown'
  · simp only [hqueue, map_append, ofNumber_append]
    omega

/-- A runtime without state gets one. -/
theorem insert (hnone : states.lookup runtime.id = none) (hmem : runtime ∈ runtimes) (hlive : runtime.id ∉ cancelled) :
    Accounted (states.put runtime.id (.new runtime)) inFlight finished next cancelled runtimes released := by
  refine ⟨forall_put ⟨rfl, hmem, nofun⟩ fun id' x _ => h.keyed id' x,
    forall_put ?_ fun id' x _ => h.counted id' x,
    forall_put (Nat.zero_le _) fun id' x _ => h.bounded id' x, fun j hj => ?_,
    forall_put nofun fun id' x _ => h.stopping id' x, fun n => ?_, fun e he => ?_, h.unique⟩
  · refine (ofRuntime_of_forall_ne fun j hj heq => ?_).symm
    obtain ⟨y, hy, -⟩ := h.hosted j hj
    cases hnone.symm.trans (heq ▸ hy)
  · obtain ⟨y, hy, hruntime⟩ := h.hosted j hj
    refine ⟨y, ?_, hruntime⟩
    rw [lookup_put, if_neg, hy]
    rintro heq
    cases hnone.symm.trans (heq ▸ hy)
  · rw [← h.placed n]
    have hperm : (queuedIn (states.put runtime.id (.new runtime))).Perm (queuedIn states) :=
      (queuedIn_put_perm ..).trans ((values_remove_perm_of_none hnone).flatMap_right _)
    exact ((hperm.append_right _).append_right _).countP_eq _
  · obtain ⟨hcancelled, hgone⟩ := h.released e he
    refine ⟨hcancelled, ?_⟩
    rw [lookup_put, if_neg (fun heq : e.2 = runtime.id => hlive (heq ▸ hcancelled)), hgone]

/-- A new invocation goes to the end of its queue. -/
theorem accept (hst : states.lookup id = some st) (hdown : st.shuttingDown = false) {q : QueuedInvocation}
    (hruntime : q.invocation.runtime = st.runtime) (hnumber : q.invocation.number = next) :
    Accounted (states.put id { st with queue := st.queue ++ [q] }) inFlight finished
      (next + 1) cancelled runtimes released := by
  refine h.put hst rfl (fun q' hq' => ?_) (h.counted id st hst) (fun _ _ => rfl) (h.bounded id st hst) (fun _ => .inl)
    (fun hdown' => ?_) fun n => ?_
  · rcases mem_append.mp hq' with hq' | hq'
    · exact (h.keyed id st hst).2.2 q' hq'
    · rw [mem_singleton.mp hq', hruntime]
  · cases hdown.symm.trans hdown'
  · simp only [map_append, map_cons, map_nil, ofNumber_append, ofNumber_cons, ofNumber_nil, hnumber]
    split_ifs <;> omega

/-- A new invocation is turned away. -/
theorem reject (hnumber : j.number = next) :
    Accounted states inFlight (finished ++ [j]) (next + 1) cancelled runtimes released where
  __ := h
  placed n := by
    have hold := h.placed n
    simp only [ofNumber_append, ofNumber_cons, ofNumber_nil, hnumber] at hold ⊢
    split_ifs at hold ⊢ <;> omega

theorem release (hnone : states.lookup id = none) (hcancelled : id ∈ cancelled) (waiter : Nat) :
    Accounted states inFlight finished next cancelled runtimes (released ++ [(waiter, id)]) where
  __ := h
  released e he := (mem_append.mp he).elim (h.released e) fun he => mem_singleton.mp he ▸ ⟨hcancelled, hnone⟩

/-- A state that has stopped is removed, and its waiters are released. -/
theorem removeStopped (hst : states.lookup id = some st) (hdown : st.shuttingDown = true)
    (hinFlight : st.inFlight = 0) :
    Accounted (states.remove id) inFlight finished next cancelled runtimes
      (released ++ st.shutdownWaiters.map (·, id)) := by
  obtain ⟨hcancelled, hempty⟩ := h.stopping id st hst hdown
  refine ⟨fun id' x hx => h.keyed id' x (lookup_of_remove hx),
    fun id' x hx => h.counted id' x (lookup_of_remove hx),
    fun id' x hx => h.bounded id' x (lookup_of_remove hx), fun j hj => ?_,
    fun id' x hx => h.stopping id' x (lookup_of_remove hx), fun n => ?_, fun e he => ?_, h.unique⟩
  · obtain ⟨x, hx, hruntime⟩ := h.hosted j hj
    refine ⟨x, ?_, hruntime⟩
    rw [lookup_remove, if_neg, hx]
    rintro heq
    have hpos := ofRuntime_pos.mpr ⟨j, hj, heq⟩
    rw [← h.counted id st hst, hinFlight] at hpos
    exact Nat.lt_irrefl 0 hpos
  · rw [← h.placed n]
    have hperm := queuedIn_perm hst
    rw [hempty, map_nil, nil_append] at hperm
    exact ((hperm.symm.append_right _).append_right _).countP_eq _
  · rcases mem_append.mp he with he | he
    · obtain ⟨hcancelled', hnone⟩ := h.released e he
      exact ⟨hcancelled', lookup_remove_of_none hnone⟩
    · obtain ⟨w, -, rfl⟩ := mem_map.mp he
      exact ⟨hcancelled, by simp⟩

end

end Accounted

def State.inFlight (held : List Invocation) : List Invocation :=
  held ++ s.running.values.map RunningInvocation.invocation ++
    s.delayedRetries.values.map QueuedInvocation.invocation ++ s.autoDisables.map RunningInvocation.invocation

def State.answered : List Nat := s.responses.map Prod.fst

/-- An answer changes nothing else, and there is one then if the invocation waits for one. -/
theorem sendResponse_spec (j : Invocation) (response : Response) :
    ∃ responses, s.sendResponse j response = { s with responses } ∧ (∀ n ∈ s.answered, n ∈ responses.map Prod.fst) ∧
      (s.answered.Nodup → (responses.map Prod.fst).Nodup) ∧ (j.request = true → j.number ∈ responses.map Prod.fst) := by
  unfold State.sendResponse
  split_ifs with hnew
  · refine ⟨_, rfl, fun n hn => ?_, fun hnodup => ?_, by simp⟩
    · rw [map_append]
      exact mem_append_left _ hn
    · rw [map_append]
      refine nodup_append.mpr ⟨hnodup, by simp, fun a ha b hb hab => hnew.2 ?_⟩
      obtain rfl : b = j.number := mem_singleton.mp hb
      exact hab ▸ ha
  · refine ⟨s.responses, rfl, fun _ => id, id, fun hrequest => ?_⟩
    by_contra hnone
    exact hnew ⟨hrequest, hnone⟩

/-- Queued invocations are answered and leave. -/
theorem cancelQueued_spec (queue : List QueuedInvocation) : ∃ responses, s.cancelQueued queue =
        { s with responses, finished := s.finished ++ queue.map invocation } ∧
      (∀ n ∈ s.answered, n ∈ responses.map Prod.fst) ∧ (s.answered.Nodup → (responses.map Prod.fst).Nodup) ∧
      ∀ q ∈ queue, q.invocation.request = true → q.invocation.number ∈ responses.map Prod.fst := by
  induction queue generalizing s with
  | nil => exact ⟨s.responses, by simp [State.cancelQueued], fun _ => id, id, nofun⟩
  | cons q queue ih =>
    obtain ⟨responses, hs, hsub, hnodup, hanswer⟩ :=
      sendResponse_spec s q.invocation (.error 503 "server is shutting down")
    obtain ⟨responses', hs', hsub', hnodup', hanswer'⟩ := ih ((s.sendCancelled q.invocation).finish q.invocation)
    simp only [State.sendCancelled, hs, State.finish] at hs' hsub' hnodup'
    refine ⟨responses', ?_, fun n hn => hsub' n (hsub n hn), fun hs => hnodup' (hnodup hs), fun q' hq' hrequest => ?_⟩
    · simpa [State.cancelQueued, State.sendCancelled, State.finish, hs] using hs'
    · rcases mem_cons.mp hq' with rfl | hq'
      · exact hsub' _ (hanswer hrequest)
      · exact hanswer' q' hq' hrequest

/-- A runtime that has a state gives its queue up, and nothing else changes. -/
theorem stop_spec {s : State} {st : TriggerState} (hst : s.states.lookup id = some st) :
    ∃ responses, (s.drainCancelled id).setShuttingDown id = { s with
        responses, finished := s.finished ++ st.queue.map invocation
        states := s.states.put id { st with queue := [], shuttingDown := true } } ∧
      (∀ n ∈ s.answered, n ∈ responses.map Prod.fst) ∧ (s.answered.Nodup → (responses.map Prod.fst).Nodup) ∧
      ∀ q ∈ st.queue, q.invocation.request = true → q.invocation.number ∈ responses.map Prod.fst := by
  obtain ⟨responses, hs, hresponses⟩ := cancelQueued_spec s st.queue
  refine ⟨responses, ?_, hresponses⟩
  simp [State.drainCancelled, State.setShuttingDown, State.setState, hst, hs, put_put]

theorem stop_eq_self {s : State} (hst : s.states.lookup id = none) : (s.drainCancelled id).setShuttingDown id = s := by
  simp [State.drainCancelled, State.setShuttingDown, hst]

theorem stop_keeps (id : Nat) : ((s.drainCancelled id).setShuttingDown id).cancelled = s.cancelled ∧
    ((s.drainCancelled id).setShuttingDown id).running = s.running := by
  cases hst : s.states.lookup id with
  | none => simp [stop_eq_self hst]
  | some st =>
    obtain ⟨responses, hs, -⟩ := stop_spec hst
    simp [hs]

/-- What the loop over a queue takes. -/
theorem popReady_spec (max : Nat) (queue : List QueuedInvocation) : ∀ inFlight,
    queue = (State.popReady max inFlight queue).1 ++ (State.popReady max inFlight queue).2.2 ∧
    (State.popReady max inFlight queue).2.1 = inFlight + (State.popReady max inFlight queue).1.length ∧
    (inFlight ≤ max → (State.popReady max inFlight queue).2.1 ≤ max) := by
  induction queue with
  | nil => exact fun inFlight => ⟨rfl, rfl, id⟩
  | cons q queue ih =>
    intro inFlight
    unfold State.popReady
    split_ifs with hlt
    · obtain ⟨hqueue, hcount, hbound⟩ := ih (inFlight + 1)
      refine ⟨congrArg (q :: ·) hqueue, ?_, fun _ => hbound hlt⟩
      rw [length_cons, hcount]
      omega
    · exact ⟨rfl, rfl, id⟩

end VarveDB.Scheduler
