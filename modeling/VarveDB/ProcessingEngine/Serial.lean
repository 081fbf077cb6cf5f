import VarveDB.ProcessingEngine.Accounting

/-! What every event keeps: the books, and the order in which attempts of serial triggers are submitted. -/
namespace VarveDB.Scheduler
open Library Runs List RunningInvocation IndexMap List.Subset List.Perm

def Before (p q : QueuedInvocation) : Prop :=
  p.invocation.number < q.invocation.number ∨ p.invocation.number = q.invocation.number ∧ p.attempt < q.attempt

def Rivals {γ : Type*} (group : TriggerRuntime → γ) (r r' : TriggerRuntime) : Prop :=
  r.maxConcurrency = 1 ∧ r'.maxConcurrency = 1 ∧ group r = group r'

def RunningInvocation.queued (r : RunningInvocation) : QueuedInvocation := ⟨r.invocation, r.attempt⟩

/-- The attempts submitted so far come before all that may follow. Of the runtimes of a group at most the last that
has an invocation is not cancelled. -/
structure Ordered {γ : Type*} (group : TriggerRuntime → γ) (states : IndexMap Nat TriggerState)
    (due : List QueuedInvocation)
    (running : List RunningInvocation) (submitted : List QueuedInvocation) (cancelled : List Nat)
    (runtimes : List TriggerRuntime) (next : Nat) : Prop where
  older : ∀ j ∈ queuedIn states ++ (due ++ running.map RunningInvocation.queued).map QueuedInvocation.invocation,
    ∀ r ∈ runtimes, group r = group j.runtime → r.id < j.runtime.id → r.id ∈ cancelled
  numbered : ∀ p ∈ submitted, p.invocation.number < next
  queues : ∀ id st, states.lookup id = some st →
    st.queue.Pairwise fun q q' => q.invocation.number < q'.invocation.number
  fifo : ∀ q ∈ due ++ running.map RunningInvocation.queued, ∀ j ∈ queuedIn states,
    j.runtime = q.invocation.runtime → q.invocation.number < j.number
  waiting : ∀ j ∈ queuedIn states, j.runtime.id ∉ cancelled → ∀ p ∈ submitted,
    Rivals group p.invocation.runtime j.runtime → p.invocation.number < j.number
  isDue : ∀ q ∈ due, q.invocation.runtime.id ∉ cancelled → ∀ p ∈ submitted,
    Rivals group p.invocation.runtime q.invocation.runtime → Before p q
  isRunning : ∀ r ∈ running, r.invocation.runtime.id ∉ cancelled → ∀ p ∈ submitted,
    Rivals group p.invocation.runtime r.invocation.runtime → p = r.queued ∨ Before p r.queued
  sorted : submitted.Pairwise fun p q => Rivals group p.invocation.runtime q.invocation.runtime → Before p q

section
variable {γ : Type*} {group : TriggerRuntime → γ} {s s' : State} {ready : List QueuedInvocation}
  {held : List Invocation}
  {q : QueuedInvocation} {r : RunningInvocation} {j : Invocation} {id : Nat} {st : TriggerState}
  {runtime : TriggerRuntime}

namespace Ordered
variable {states states' : IndexMap Nat TriggerState} {due due' submitted : List QueuedInvocation}
  {running running' : List RunningInvocation} {cancelled cancelled' : List Nat} {runtimes : List TriggerRuntime}
  {next next' : Nat}

section
variable (h : Ordered group states due running submitted cancelled runtimes next)
include h

/-- Invocations may leave and runtimes may be cancelled. -/
theorem mono (hqueues : ∀ id st', states'.lookup id = some st' →
      st'.queue = [] ∨ ∃ st, states.lookup id = some st ∧ st'.queue = st.queue) (hdue : due' ⊆ due)
    (hrunning : running' ⊆ running) (hcancelled : cancelled ⊆ cancelled') (hnext : next ≤ next') :
    Ordered group states' due' running' submitted cancelled' runtimes next' := by
  have hqueued : queuedIn states' ⊆ queuedIn states := by
    intro j hj
    obtain ⟨id, st', hst', q, hq, rfl⟩ := mem_queuedIn.mp hj
    rcases hqueues id st' hst' with hempty | ⟨st, hst, hsame⟩
    · rw [hempty] at hq
      cases hq
    · exact mem_queuedIn.mpr ⟨id, st, hst, q, hsame ▸ hq, rfl⟩
  have hactive : due' ++ running'.map queued ⊆ due ++ running.map queued :=
    append_subset.mpr ⟨subset_append_of_subset_left _ hdue, subset_append_of_subset_right _ (map_subset _ hrunning)⟩
  refine ⟨fun j hj r hr hgroup hlt => hcancelled (h.older j ?_ r hr hgroup hlt), fun p hp => ?_, fun id st' hst' => ?_,
    fun q hq j hj => h.fifo q (hactive hq) j (hqueued hj),
    fun j hj hlive => h.waiting j (hqueued hj) fun hc => hlive (hcancelled hc),
    fun q hq hlive => h.isDue q (hdue hq) fun hc => hlive (hcancelled hc),
    fun r hr hlive => h.isRunning r (hrunning hr) fun hc => hlive (hcancelled hc), h.sorted⟩
  · rcases mem_append.mp hj with hj | hj
    · exact mem_append_left _ (hqueued hj)
    · exact mem_append_right _ (map_subset _ hactive hj)
  · exact Nat.lt_of_lt_of_le (h.numbered p hp) hnext
  · rcases hqueues id st' hst' with hempty | ⟨st, hst, hsame⟩
    · rw [hempty]
      exact List.Pairwise.nil
    · rw [hsame]
      exact h.queues id st hst

/-- The queue of one state is kept or emptied. -/
theorem put {st' : TriggerState} (hqueue : st'.queue = [] ∨ ∃ st, states.lookup id = some st ∧ st'.queue = st.queue) :
    Ordered group (states.put id st') due running submitted cancelled runtimes next := by
  refine h.mono ?_ (refl _) (refl _) (refl _) le_rfl
  exact forall_put hqueue fun id' x _ hx => .inr ⟨x, hx, rfl⟩

theorem shrink (hdue : due' ⊆ due) (hrunning : running' ⊆ running) :
    Ordered group states due' running' submitted cancelled runtimes next :=
  h.mono (fun _ st hst => .inr ⟨st, hst, rfl⟩) hdue hrunning (refl _) le_rfl

/-- A new runtime is younger than those that have invocations. -/
theorem register (hknown : ∀ j ∈ queuedIn states ++ (due ++ running.map queued).map QueuedInvocation.invocation,
      j.runtime.id < runtime.id) : Ordered group states due running submitted cancelled
        (runtimes ++ [runtime]) next where
  __ := h
  older j hj r hr hgroup hlt := by
    rcases mem_snoc.mp hr with hr | rfl
    · exact h.older j hj r hr hgroup hlt
    · exact absurd hlt (Nat.lt_asymm (hknown j hj))

/-- A running attempt that is retried comes after the attempt that failed. -/
theorem retry (hr : r ∈ running) :
    Ordered group states (⟨r.invocation, r.attempt + 1⟩ :: due) running submitted cancelled runtimes next := by
  have hactive : r.queued ∈ due ++ running.map queued :=
    mem_append_right _ (mem_map_of_mem hr)
  refine ⟨fun j hj => h.older j ?_, h.numbered, h.queues, fun q hq j hj => ?_, h.waiting,
    fun q hq hlive p hp hrivals => ?_, h.isRunning, h.sorted⟩
  · rcases mem_append.mp hj with hj | hj
    · exact mem_append_left _ hj
    · refine mem_append_right _ ?_
      rcases mem_cons.mp hj with rfl | hj
      · exact mem_map.mpr ⟨r.queued, hactive, rfl⟩
      · exact hj
  · rcases mem_cons.mp hq with rfl | hq
    · exact h.fifo r.queued hactive j hj
    · exact h.fifo q hq j hj
  · rcases mem_cons.mp hq with rfl | hq
    · rcases h.isRunning r hr hlive p hp hrivals with rfl | hlt | ⟨hnumber, hattempt⟩
      · exact .inr ⟨rfl, Nat.lt_succ_self _⟩
      · exact .inl hlt
      · exact .inr ⟨hnumber, Nat.lt_succ_of_lt hattempt⟩
    · exact h.isDue q hq hlive p hp hrivals

/-- A new invocation goes to the end of its queue, where all that came before it have smaller numbers. -/
theorem accept (hst : st.queue = [] ∨ states.lookup id = some st) (hnumber : q.invocation.number = next)
    (hbelow : ∀ j ∈ queuedIn states ++ (due ++ running.map queued).map QueuedInvocation.invocation,
      j.number < next)
    (holder : ∀ r ∈ runtimes, group r = group q.invocation.runtime → r.id < q.invocation.runtime.id →
      r.id ∈ cancelled) :
    Ordered group (states.put id { st with queue := st.queue ++ [q] }) due running submitted cancelled runtimes
      (next + 1) := by
  have hlookup {id' : Nat} {x : TriggerState} {q' : QueuedInvocation}
      (hx : (states.put id { st with queue := st.queue ++ [q] }).lookup id' = some x) (hq' : q' ∈ x.queue) :
      q' = q ∨ q'.invocation ∈ queuedIn states := by
    rcases lookup_of_put hx with ⟨rfl, rfl⟩ | ⟨heq, hx⟩
    · rcases mem_append.mp hq' with hq' | hq'
      · rcases hst with hempty | hst
        · rw [hempty] at hq'
          cases hq'
        · exact .inr (mem_queuedIn.mpr ⟨_, st, hst, q', hq', rfl⟩)
      · exact .inl (mem_singleton.mp hq')
    · exact .inr (mem_queuedIn.mpr ⟨id', x, hx, q', hq', rfl⟩)
  have hqueued {j : Invocation} (hj : j ∈ queuedIn (states.put id { st with queue := st.queue ++ [q] })) :
      j = q.invocation ∨ j ∈ queuedIn states := by
    obtain ⟨id', x, hx, q', hq', rfl⟩ := mem_queuedIn.mp hj
    exact (hlookup hx hq').imp_left (congrArg QueuedInvocation.invocation)
  refine ⟨fun j hj => ?_, fun p hp => Nat.lt_succ_of_lt (h.numbered p hp),
    forall_put ?_ fun id' x _ => h.queues id' x, fun q' hq' j hj hsame => ?_,
    fun j hj hlive p hp hrivals => ?_, h.isDue, h.isRunning, h.sorted⟩
  · rcases mem_append.mp hj with hj | hj
    · rcases hqueued hj with rfl | hj
      · exact holder
      · exact h.older j (mem_append_left _ hj)
    · exact h.older j (mem_append_right _ hj)
  · rcases hst with hempty | hst
    · simp [hempty]
    · refine pairwise_append.mpr ⟨h.queues _ st hst, pairwise_singleton .., fun q' hq' q'' hq'' => ?_⟩
      rw [mem_singleton.mp hq'', hnumber]
      exact hbelow _ (mem_append_left _ (mem_queuedIn.mpr ⟨_, st, hst, q', hq', rfl⟩))
  · rcases hqueued hj with rfl | hj
    · rw [hnumber]
      exact hbelow _ (mem_append_right _ (mem_map_of_mem hq'))
    · exact h.fifo q' hq' j hj hsame
  · rcases hqueued hj with rfl | hj
    · rw [hnumber]
      exact h.numbered p hp
    · exact h.waiting j hj hlive p hp hrivals

/-- The first part of a queue becomes due. -/
theorem take (hst : states.lookup id = some st) {rest : List QueuedInvocation} (hqueue : st.queue = ready ++ rest)
    (hkeyed : ∀ id st, states.lookup id = some st → ∀ q ∈ st.queue, q.invocation.runtime.id = id) (inFlight : Nat) :
    Ordered group (states.put id { st with inFlight, queue := rest })
      (ready ++ due) running submitted cancelled runtimes
      next := by
  have hready {q : QueuedInvocation} (hq : q ∈ ready) : q.invocation ∈ queuedIn states :=
    mem_queuedIn.mpr ⟨id, st, hst, q, hqueue ▸ mem_append_left _ hq, rfl⟩
  have hrest {q : QueuedInvocation} (hq : q ∈ rest) : q.invocation ∈ queuedIn states :=
    mem_queuedIn.mpr ⟨id, st, hst, q, hqueue ▸ mem_append_right _ hq, rfl⟩
  have hqueued {j : Invocation} (hj : j ∈ queuedIn (states.put id { st with inFlight, queue := rest })) :
      (∃ q ∈ rest, q.invocation = j) ∨ j.runtime.id ≠ id ∧ j ∈ queuedIn states := by
    obtain ⟨id', x, hx, q, hq, rfl⟩ := mem_queuedIn.mp hj
    rcases lookup_of_put hx with ⟨rfl, rfl⟩ | ⟨heq, hx⟩
    · exact .inl ⟨q, hq, rfl⟩
    · exact .inr ⟨hkeyed id' x hx q hq ▸ heq, mem_queuedIn.mpr ⟨id', x, hx, q, hq, rfl⟩⟩
  have hsub {j : Invocation} (hj : j ∈ queuedIn (states.put id { st with inFlight, queue := rest })) :
      j ∈ queuedIn states := by
    rcases hqueued hj with ⟨q, hq, rfl⟩ | ⟨-, hj⟩
    · exact hrest hq
    · exact hj
  have hsorted := pairwise_append.mp (hqueue ▸ h.queues id st hst)
  refine ⟨fun j hj => h.older j ?_, h.numbered, forall_put hsorted.2.1 fun id' x _ => h.queues id' x,
    fun q hq j hj hsame => ?_, fun j hj => h.waiting j (hsub hj), fun q hq hlive p hp hrivals => ?_, h.isRunning,
      h.sorted⟩
  · rcases mem_append.mp hj with hj | hj
    · exact mem_append_left _ (hsub hj)
    · rw [append_assoc, map_append] at hj
      rcases mem_append.mp hj with hj | hj
      · obtain ⟨q, hq, rfl⟩ := mem_map.mp hj
        exact mem_append_left _ (hready hq)
      · exact mem_append_right _ hj
  · rw [append_assoc] at hq
    rcases mem_append.mp hq with hq | hq
    · rcases hqueued hj with ⟨q', hq', rfl⟩ | ⟨hother, -⟩
      · exact hsorted.2.2 q hq q' hq'
      · refine absurd ?_ hother
        rw [hsame]
        exact hkeyed id st hst q (hqueue ▸ mem_append_left _ hq)
    · exact h.fifo q hq j (hsub hj) hsame
  · rcases mem_append.mp hq with hq | hq
    · exact .inl (h.waiting _ (hready hq) hlive p hp hrivals)
    · exact h.isDue q hq hlive p hp hrivals

end

/-- What is due is submitted, if nothing else of its group is under way or queued before it. -/
theorem submit (h : Ordered group states (q :: due) running submitted cancelled runtimes next)
    (hr : r.queued = q) (hlive : q.invocation.runtime.id ∉ cancelled) (hnumber : q.invocation.number < next)
    (hsame : ∀ j ∈ queuedIn states ++ (due ++ running.map queued).map QueuedInvocation.invocation,
      j.runtime.id ∉ cancelled → group q.invocation.runtime = group j.runtime → j.runtime = q.invocation.runtime)
    (halone : q.invocation.runtime.maxConcurrency = 1 →
      ∀ j ∈ (due ++ running.map queued).map QueuedInvocation.invocation, j.runtime ≠ q.invocation.runtime) :
    Ordered group states due (r :: running) (submitted ++ [q]) cancelled runtimes next := by
  have hactive {q' : QueuedInvocation} (hq' : q' ∈ due ++ (r :: running).map queued) :
      q' ∈ q :: due ++ running.map queued := by
    rw [map_cons, hr] at hq'
    exact perm_middle.mem_iff.mp hq'
  have hother {q' : QueuedInvocation} (hq' : q' ∈ due ++ running.map queued)
      (hlive' : q'.invocation.runtime.id ∉ cancelled) : ¬ Rivals group q.invocation.runtime q'.invocation.runtime :=
    fun ⟨hserial, _, hgroup⟩ => halone hserial _ (mem_map_of_mem hq')
      (hsame _ (mem_append_right _ (mem_map_of_mem hq')) hlive' hgroup)
  have hsubmitted {p : QueuedInvocation} (hp : p ∈ submitted ++ [q]) : p ∈ submitted ∨ p = q :=
    (mem_append.mp hp).imp_right mem_singleton.mp
  refine ⟨fun j hj => h.older j ?_, fun p hp => ?_, h.queues, fun q' hq' => h.fifo q' (hactive hq'),
    fun j hj hlive' p hp hrivals => ?_, fun q' hq' hlive' p hp hrivals => ?_, fun r' hr' hlive' p hp hrivals => ?_, ?_⟩
  · rcases mem_append.mp hj with hj | hj
    · exact mem_append_left _ hj
    · obtain ⟨q', hq', rfl⟩ := mem_map.mp hj
      exact mem_append_right _ (mem_map_of_mem (hactive hq'))
  · rcases hsubmitted hp with hp | rfl
    · exact h.numbered p hp
    · exact hnumber
  · rcases hsubmitted hp with hp | rfl
    · exact h.waiting j hj hlive' p hp hrivals
    · exact h.fifo p mem_cons_self j hj (hsame j (mem_append_left _ hj) hlive' hrivals.2.2)
  · rcases hsubmitted hp with hp | rfl
    · exact h.isDue q' (mem_cons_of_mem _ hq') hlive' p hp hrivals
    · exact absurd hrivals (hother (mem_append_left _ hq') hlive')
  · rcases mem_cons.mp hr' with rfl | hr'
    · rw [hr]
      refine (hsubmitted hp).symm.imp_right fun hp => h.isDue q mem_cons_self hlive p hp ?_
      rw [← hr]
      exact hrivals
    · rcases hsubmitted hp with hp | rfl
      · exact h.isRunning r' hr' hlive' p hp hrivals
      · exact absurd hrivals (hother (mem_append_right _ (mem_map_of_mem hr')) hlive')
  · refine pairwise_append.mpr ⟨h.sorted, pairwise_singleton .., fun p hp q' hq' hrivals => ?_⟩
    obtain rfl := mem_singleton.mp hq'
    exact h.isDue _ mem_cons_self hlive p hp hrivals

end Ordered

/-- An invocation reaches the scheduler only when all older runtimes of its group are cancelled. -/
def State.Admits (group : TriggerRuntime → γ) (s : State) : Action → Prop
  | .event (.enqueue id _) _ =>
    ∀ r ∈ s.runtimes, ∀ r' ∈ s.runtimes, r'.id = id → group r = group r' → r.id < id → r.id ∈ s.cancelled
  | _ => True

instance [DecidableEq γ] (group : TriggerRuntime → γ) (s : State) (a : Action) : Decidable (s.Admits group a) := by
  cases a with
  | event e order => cases e <;> dsimp only [State.Admits] <;> infer_instance
  | _ => exact .isTrue trivial

/-- The serial runtimes of a group have their attempts submitted in order, and no two of them running. -/
structure State.Serial (group : TriggerRuntime → γ) (s : State) : Prop where
  inOrder : s.submitted.Pairwise fun p q => Rivals group p.invocation.runtime q.invocation.runtime → Before p q
  noOverlap : ∀ w w' r r', s.running.lookup w = some r → s.running.lookup w' = some r' →
    Rivals group r.invocation.runtime r'.invocation.runtime → w = w'

def State.active (s : State) (ready : List QueuedInvocation) : List QueuedInvocation :=
  ready ++ s.delayedRetries.values ++ s.running.values.map RunningInvocation.queued

structure State.Sound (group : TriggerRuntime → γ) (s : State) (held : List Invocation)
    (ready : List QueuedInvocation) : Prop where
  accounted : Accounted s.states
    (s.inFlight (ready.map QueuedInvocation.invocation ++ held)) s.finished s.next s.cancelled
    s.runtimes s.released
  once : s.answered.Nodup
  answers : ∀ j ∈ s.finished ++ s.autoDisables.map RunningInvocation.invocation, j.request = true →
    j.number ∈ s.answered
  workIds : ∀ id, s.nextWorkId ≤ id → s.running.lookup id = none
  retryDelayIds : ∀ id, s.nextRetryDelayId ≤ id → s.delayedRetries.lookup id = none
  ordered : Ordered group s.states
    (ready ++ s.delayedRetries.values) s.running.values s.submitted s.cancelled s.runtimes
    s.next

private theorem lookup_put_of_lt {ν : Type*} {m : IndexMap Nat ν} {next id' : Nat} {v : ν}
    (h : ∀ id, next ≤ id → m.lookup id = none) (hlt : next + 1 ≤ id') : (m.put next v).lookup id' = none := by
  rw [lookup_put, if_neg (by omega)]
  exact h id' (by omega)

namespace State.Sound

theorem mem_inFlight_of_active (hq : q ∈ s.active ready) :
    q.invocation ∈ s.inFlight (ready.map QueuedInvocation.invocation ++ held) := by
  simp only [active, mem_append, mem_map] at hq
  simp only [inFlight, mem_append, mem_map]
  rcases hq with (hq | hq) | ⟨r, hr, rfl⟩
  · exact .inl (.inl (.inl (.inl ⟨q, hq, rfl⟩)))
  · exact .inl (.inr ⟨q, hq, rfl⟩)
  · exact .inl (.inl (.inr ⟨r, hr, rfl⟩))

section
variable (h : s.Sound group held ready)
include h

theorem known (hj : j ∈ queuedIn s.states ++ s.inFlight (ready.map QueuedInvocation.invocation ++ held)) :
    j.runtime ∈ s.runtimes ∧ j.number < s.next := by
  refine ⟨?_, ?_⟩
  · rcases mem_append.mp hj with hj | hj
    · obtain ⟨id, st, hst, q, hq, rfl⟩ := mem_queuedIn.mp hj
      obtain ⟨-, hmem, hown⟩ := h.accounted.keyed id st hst
      exact hown q hq ▸ hmem
    · obtain ⟨st, hst, hruntime⟩ := h.accounted.hosted j hj
      exact hruntime ▸ (h.accounted.keyed _ st hst).2.1
  · by_contra hge
    have hplaced := h.accounted.placed j.number
    rw [if_neg hge, ofNumber, countP_eq_zero] at hplaced
    exact hplaced j (mem_append_left _ hj) (by simp)

section
variable (hj : j ∈ queuedIn s.states ++ (s.active ready).map QueuedInvocation.invocation)
include hj

theorem known_active : j.runtime ∈ s.runtimes ∧ j.number < s.next := by
  refine h.known ((mem_append.mp hj).elim (mem_append_left _) fun hj => mem_append_right _ ?_)
  obtain ⟨q, hq, rfl⟩ := mem_map.mp hj
  exact mem_inFlight_of_active hq

/-- Of two runtimes of a group that have invocations and are not cancelled, none is older. -/
theorem runtime_eq {j' : Invocation}
    (hj' : j' ∈ queuedIn s.states ++ (s.active ready).map QueuedInvocation.invocation)
    (hlive : j.runtime.id ∉ s.cancelled)
    (hlive' : j'.runtime.id ∉ s.cancelled) (hgroup : group j.runtime = group j'.runtime) : j'.runtime = j.runtime := by
  have hknown := (h.known_active hj).1
  have hknown' := (h.known_active hj').1
  rcases Nat.lt_trichotomy j'.runtime.id j.runtime.id with hlt | heq | hlt
  · exact absurd (h.ordered.older j hj _ hknown' hgroup.symm hlt) hlive'
  · exact h.accounted.runtime_eq hknown' hknown heq
  · exact absurd (h.ordered.older j' hj' _ hknown hgroup hlt) hlive

end

theorem sendResponse (j : Invocation) (response : Response) : (s.sendResponse j response).Sound group held ready ∧
      (j.request = true → j.number ∈ (s.sendResponse j response).answered) := by
  obtain ⟨responses, hs, hsub, hnodup, hanswer⟩ := sendResponse_spec s j response
  rw [hs]
  exact ⟨{ h with once := hnodup h.once, answers := fun j hj hrequest => hsub _ (h.answers j hj hrequest) }, hanswer⟩

/-- More invocations are finished, with their answers. -/
theorem answers_append {answered : List Nat} {more : List Invocation}
    (hsub : ∀ n ∈ s.answered, n ∈ answered) (hmore : ∀ j ∈ more, j.request = true → j.number ∈ answered) :
    ∀ j ∈ s.finished ++ more ++ s.autoDisables.map invocation, j.request = true → j.number ∈ answered := by
  intro j hj hrequest
  rcases mem_append.mp hj with hj | hj
  · rcases mem_append.mp hj with hj | hj
    · exact hsub _ (h.answers j (mem_append_left _ hj) hrequest)
    · exact hmore j hj hrequest
  · exact hsub _ (h.answers j (mem_append_right _ hj) hrequest)

/-- Work that no longer runs may be tried once more. -/
theorem hold (hr : s.running.lookup id = some r) :
    Sound group { s with running := s.running.remove id } held (⟨r.invocation, r.attempt + 1⟩ :: ready) := by
  refine { h with
    accounted := h.accounted.perm ?_, workIds := fun id' hid' => lookup_remove_of_none (h.workIds id' hid')
    ordered := (h.ordered.retry (mem_values_of_lookup hr)).shrink (refl _) (values_remove_subset ..) }
  refine append_right _ (append_right _ ?_)
  exact perm_middle.symm.trans (append_left _ ((values_perm hr).map invocation).symm)

theorem holdDelayed (hq : s.delayedRetries.lookup id = some q) :
    Sound group { s with delayedRetries := s.delayedRetries.remove id } held (q :: ready) := by
  have hvalues := values_perm hq
  refine { h with
    accounted := h.accounted.perm ?_, retryDelayIds := fun id' hid' => lookup_remove_of_none (h.retryDelayIds id' hid')
    ordered := h.ordered.shrink (perm_middle.symm.trans (hvalues.symm.append_left _)).subset (refl _) }
  exact append_right _ (perm_middle.symm.trans (append_left _ (hvalues.map _).symm))

theorem cancel (id : Nat) : Sound group { s with cancelled := id :: s.cancelled } held ready :=
  { h with
    accounted := h.accounted.cancel id
    ordered := h.ordered.mono (fun _ st hst => .inr ⟨st, hst, rfl⟩) (refl _) (refl _)
      (subset_cons_self ..) le_rfl }

/-- The queue of a cancelled runtime is given up for good. -/
theorem stop (hcancelled : id ∈ s.cancelled) : ((s.drainCancelled id).setShuttingDown id).Sound group held ready := by
  cases hst : s.states.lookup id with
  | none => rwa [stop_eq_self hst]
  | some st =>
    obtain ⟨responses, hs, hsub, hnodup, hanswer⟩ := stop_spec hst
    rw [hs]
    exact { h with
      accounted := h.accounted.stop hst hcancelled, once := hnodup h.once
      answers := h.answers_append hsub (forall_mem_map.mpr hanswer), ordered := h.ordered.put (.inl rfl) }

theorem shutdownTrigger (hcancelled : id ∈ s.cancelled) (waiter : Nat) :
    (s.shutdownTrigger id waiter).Sound group held ready := by
  unfold State.shutdownTrigger
  split
  · next hnone => exact { h with accounted := h.accounted.release hnone hcancelled waiter }
  · next st hst =>
    have hwaiter :
        (s.setState id { st with shutdownWaiters := st.shutdownWaiters ++ [waiter] }).Sound group held ready :=
      { h with
        accounted := h.accounted.same hst rfl rfl rfl (h.accounted.stopping id st hst)
        ordered := h.ordered.put (.inr ⟨st, hst, rfl⟩) }
    exact hwaiter.stop hcancelled

/-- A state that is stopping is that of a cancelled runtime. -/
theorem mem_cancelled_of_isStopping (hst : s.states.lookup id = some st)
    (hstopping : s.isStopping st = true) : id ∈ s.cancelled := by
  rcases Bool.or_eq_true_iff.mp hstopping with hdown | hcancelled
  · exact (h.accounted.stopping id st hst hdown).1
  · rw [← (h.accounted.keyed id st hst).1]
    exact of_decide_eq_true hcancelled

end

/-- Nothing else of a serial runtime is in flight. -/
theorem alone (h : s.Sound group held (q :: ready)) (hserial : q.invocation.runtime.maxConcurrency = 1)
    (hj : j ∈ s.inFlight (ready.map QueuedInvocation.invocation ++ held)) : j.runtime ≠ q.invocation.runtime := by
  intro hsame
  obtain ⟨st, hst, hruntime⟩ := h.accounted.hosted q.invocation mem_cons_self
  have hcounted := (h.accounted.counted _ st hst).trans (ofRuntime_cons _ q.invocation (s.inFlight (_ ++ held)))
  have hbounded := h.accounted.bounded _ st hst
  have hother := ofRuntime_pos.mpr ⟨j, hj, congrArg TriggerRuntime.id hsame⟩
  rw [if_pos rfl] at hcounted
  rw [← hruntime, hserial] at hbounded
  omega

/-- An invocation in hand leaves with its answer. -/
theorem leave (h : s.Sound group (j :: held) []) (hanswer : j.request = true → j.number ∈ s.answered) :
    (s.leave j).Sound group held [] := by
  obtain ⟨st, hst, -⟩ := h.accounted.hosted j mem_cons_self
  have hleave : s.leave j = { s with
      states := s.states.put j.runtime.id { st with inFlight := st.inFlight - 1 }, finished := s.finished ++ [j] } := by
    simp [State.leave, finish, releaseInFlight, setState, hst]
  rw [hleave]
  exact { h with
    accounted := h.accounted.leave hst
    answers := h.answers_append (fun _ => id) (forall_mem_singleton.mpr hanswer)
    ordered := h.ordered.put (.inr ⟨st, hst, rfl⟩) }

/-- What was to be submitted is given up, with an answer. -/
theorem sendAndLeave (h : s.Sound group held [q]) (response : Response) :
    ((s.sendResponse q.invocation response).leave q.invocation).Sound group held [] := by
  obtain ⟨hsent, hanswer⟩ := h.sendResponse q.invocation response
  have hheld : (s.sendResponse q.invocation response).Sound group (q.invocation :: held) [] :=
    { hsent with ordered := hsent.ordered.shrink (subset_cons_self ..) (refl _) }
  exact hheld.leave hanswer

theorem submitWorker (h : s.Sound group [] (q :: ready)) (hlive : q.invocation.runtime.id ∉ s.cancelled) :
    (s.submitWorker q).Sound group [] ready := by
  have hvalues := values_put_perm_of_none (h.workIds s.nextWorkId le_rfl)
    (⟨q.invocation, q.attempt, s.workers.getD s.nextWorkerIndex ""⟩ : RunningInvocation)
  refine { h with
    accounted := h.accounted.perm ?_, workIds := fun id' hid' => lookup_put_of_lt h.workIds hid'
    ordered := (h.ordered.submit rfl hlive (h.known (mem_append_right _ mem_cons_self)).2
      (fun j hj hlive' hgroup => h.runtime_eq (mem_append_right _ mem_cons_self) ?_ hlive hlive' hgroup)
      fun hserial j hj => ?_).shrink (refl _) hvalues.subset }
  · refine append_right _ (append_right _ ?_)
    exact (append_left _ (hvalues.map _)).trans perm_middle
  · exact (mem_append.mp hj).elim (mem_append_left _) fun hj => mem_append_right _ (mem_cons_of_mem _ hj)
  · obtain ⟨q', hq', rfl⟩ := mem_map.mp hj
    exact h.alone hserial (mem_inFlight_of_active hq')

private theorem delay (h : s.Sound group held (q :: ready)) : Sound group { s with
      delayedRetries := s.delayedRetries.put s.nextRetryDelayId q, nextRetryDelayId := s.nextRetryDelayId + 1 } held
        ready := by
  have hvalues := values_put_perm_of_none (h.retryDelayIds s.nextRetryDelayId le_rfl) q
  refine { h with
    accounted := h.accounted.perm ?_, retryDelayIds := fun id' hid' => lookup_put_of_lt h.retryDelayIds hid'
    ordered := h.ordered.shrink (((hvalues.append_left _).trans perm_middle).subset) (refl _) }
  exact append_right _ ((append_left _ (hvalues.map _)).trans perm_middle)

theorem disable (h : s.Sound group [] [q]) (hr : r.invocation = q.invocation)
    (hanswer : q.invocation.request = true → q.invocation.number ∈ s.answered) :
    Sound group { s with autoDisables := s.autoDisables ++ [r] } [] [] := by
  refine { h with
    accounted := h.accounted.perm ?_, answers := fun j' hj' hrequest => ?_
    ordered := h.ordered.shrink (subset_cons_self ..) (refl _) }
  · simp only [inFlight, map_append, map_cons, map_nil, hr]
    rw [← append_assoc]
    exact perm_append_singleton ..
  · rw [map_append, ← append_assoc] at hj'
    rcases mem_snoc.mp hj' with hj' | rfl
    · exact h.answers j' hj' hrequest
    · rw [hr] at hrequest ⊢
      exact hanswer hrequest

private theorem holdDisable (h : s.Sound group [] []) {i : Nat} (hr : s.autoDisables[i]? = some r) :
    Sound group { s with autoDisables := s.autoDisables.eraseIdx i } [r.invocation] [] ∧
      (r.invocation.request = true → r.invocation.number ∈ s.answered) := by
  obtain ⟨hi, rfl⟩ := List.getElem?_eq_some_iff.mp hr
  refine ⟨{ h with accounted := h.accounted.perm ?_, answers := fun j' hj' => h.answers j' ?_ },
    h.answers _ (mem_append_right _ (mem_map_of_mem (getElem_mem hi)))⟩
  · exact perm_middle.symm.trans (append_left _ ((getElem_cons_eraseIdx_perm hi).map _))
  · refine (mem_append.mp hj').elim (mem_append_left _) fun hj' => mem_append_right _ ?_
    obtain ⟨r, hr, rfl⟩ := mem_map.mp hj'
    exact mem_map_of_mem (mem_of_mem_eraseIdx hr)

theorem enqueue (h : s.Sound group [] []) (hmem : runtime ∈ s.runtimes) (request : Bool)
    (holder : ∀ r ∈ s.runtimes, group r = group runtime → r.id < runtime.id → r.id ∈ s.cancelled) :
    (s.enqueue runtime request).Sound group [] [] := by
  have hreject (response : Response) : Sound group
      ((State.sendResponse { s with next := s.next + 1 } ⟨runtime, s.next, request⟩ response).finish
        ⟨runtime, s.next, request⟩) [] [] := by
    obtain ⟨responses, hs, hsub, hnodup, hanswer⟩ :=
      sendResponse_spec { s with next := s.next + 1 } ⟨runtime, s.next, request⟩ response
    rw [hs]
    exact { h with
      accounted := h.accounted.reject rfl, once := hnodup h.once
      answers := h.answers_append hsub (forall_mem_singleton.mpr hanswer)
      ordered := h.ordered.mono (fun _ st hst => .inr ⟨st, hst, rfl⟩) (refl _) (refl _)
        (refl _) (Nat.le_succ _) }
  have hbelow : ∀ j ∈ queuedIn s.states ++ (s.active []).map QueuedInvocation.invocation, j.number < s.next :=
    fun j hj => (h.known_active hj).2
  unfold State.enqueue
  simp only
  split_ifs with hcancelled hstopping
  · exact hreject _
  · -- a state that is stopping has its token cancelled
    refine absurd hstopping ?_
    have hlive : runtime.id ∉ s.cancelled := by simpa [isCancelled] using hcancelled
    cases hst : s.states.lookup runtime.id with
    | none => simpa [isStopping, TriggerState.new] using hcancelled
    | some st =>
      have hid := (h.accounted.keyed _ st hst).1
      have hdown : st.shuttingDown = false := by
        by_contra hdown
        exact hlive (h.accounted.stopping _ st hst (by simpa using hdown)).1
      simpa [isStopping, isCancelled, hdown, hid] using hlive
  · have hlive : runtime.id ∉ s.cancelled := by simpa [isCancelled] using hcancelled
    cases hst : s.states.lookup runtime.id with
    | none =>
      have hinsert := h.accounted.insert hst hmem hlive
      have haccept :=
          hinsert.accept (q := ⟨⟨runtime, s.next, request⟩, 1⟩) (show (s.states.put runtime.id (.new runtime)).lookup
        runtime.id = some (.new runtime) by simp) rfl rfl rfl
      rw [put_put] at haccept
      exact { h with accounted := haccept, ordered := h.ordered.accept (.inl rfl) rfl hbelow holder }
    | some st =>
      obtain ⟨hid, hruntime, -⟩ := h.accounted.keyed _ st hst
      have hdown : st.shuttingDown = false := by simpa [hst, isStopping, isCancelled, hid, hlive] using hstopping
      exact { h with
        accounted := h.accounted.accept hst hdown (h.accounted.runtime_eq hmem hruntime hid.symm) rfl
        ordered := h.ordered.accept (.inr hst) rfl hbelow holder }

section
variable (h : s.Sound group [] [⟨r.invocation, r.attempt + 1⟩])
include h

theorem handleAttemptError (e : TriggerExecutionError) : (s.handleAttemptError r e).Sound group [] [] := by
  unfold State.handleAttemptError
  split
  · exact h.sendAndLeave _
  · obtain ⟨hsent, hanswer⟩ := h.sendResponse r.invocation (.error 500 e.message)
    exact hsent.disable rfl hanswer
  · split_ifs
    · exact h.sendAndLeave _
    · exact h.delay

theorem handleAttemptResult
    (result : Except TriggerExecutionError TriggerWorkOutput) : (s.handleAttemptResult r result).Sound group [] [] := by
  unfold State.handleAttemptResult
  split_ifs
  · exact h.sendAndLeave _
  · split
    · next output =>
      cases output with
      | complete | requestResponse => exact h.sendAndLeave _
    · split_ifs
      · exact h.sendAndLeave _
      · exact h.handleAttemptError _

end

section
variable (h : s.Sound group [] [])
include h

theorem handleWorkerResult (workerNodeId : String) (workId : Nat)
    (result : Except TriggerExecutionError TriggerWorkOutput) :
    (s.handleWorkerResult workerNodeId workId result).Sound group [] [] := by
  unfold State.handleWorkerResult
  cases hr : s.running.lookup workId with
  | none => exact h
  | some r =>
    simp only [elim_some]
    split_ifs
    · exact h
    · exact (h.hold hr).handleAttemptResult result

theorem handleRetryDelay (id : Nat) (cancelled : Bool) : (s.handleRetryDelay id cancelled).Sound group [] [] := by
  unfold State.handleRetryDelay
  cases hq : s.delayedRetries.lookup id with
  | none => exact h
  | some q =>
    simp only [elim_some]
    split_ifs with hstop
    · exact (h.holdDelayed hq).sendAndLeave _
    · refine (h.holdDelayed hq).submitWorker fun hcancelled => hstop ?_
      simp [isCancelled, hcancelled]

theorem handleAutoDisableResult (i : Nat) (disabled : Option Bool) :
    (s.handleAutoDisableResult i disabled).Sound group [] [] := by
  unfold State.handleAutoDisableResult
  cases hr : s.autoDisables[i]? with
  | none => exact h
  | some r =>
    obtain ⟨hheld, hanswer⟩ := h.holdDisable hr
    split_ifs
    · refine ((hheld.cancel r.invocation.runtime.id).stop mem_cons_self).leave fun hrequest => ?_
      obtain ⟨st, hst, -⟩ := hheld.accounted.hosted r.invocation mem_cons_self
      obtain ⟨responses, hs, hsub, -⟩ := stop_spec (s := { s with
        autoDisables := s.autoDisables.eraseIdx i, cancelled := r.invocation.runtime.id :: s.cancelled }) hst
      rw [hs]
      exact hsub _ (hanswer hrequest)
    · exact hheld.leave hanswer

theorem handle {e : Event} {order : List Nat} (hguard : s.Admits group (.event e order))
    (hhandle : s.handle e = some s') : s'.Sound group [] [] := by
  cases e with
  | enqueue id request =>
    obtain ⟨runtime, hruntime, rfl⟩ := map_eq_some_iff.mp hhandle
    have hmem := mem_of_find?_eq_some hruntime
    obtain rfl : runtime.id = id := by simpa using List.find?_some hruntime
    exact h.enqueue hmem request fun r hr => hguard r hr runtime hmem rfl
  | workerFinished workerNodeId workId result =>
    cases hhandle
    exact h.handleWorkerResult ..
  | workerProgressed =>
    cases hhandle
    exact h
  | shutdown id waiter =>
    simp only [State.handle] at hhandle
    split_ifs at hhandle with hcancelled
    cases hhandle
    exact h.shutdownTrigger hcancelled waiter
  | retryDelay id cancelled =>
    cases hhandle
    exact h.handleRetryDelay ..
  | autoDisable i disabled =>
    simp only [State.handle] at hhandle
    split_ifs at hhandle
    cases hhandle
    exact h.handleAutoDisableResult ..

end

theorem detachWork (h : s.Sound group [] []) (workId : Nat) : (s.detachWork workId).Sound group [] [] := by
  unfold State.detachWork
  cases hr : s.running.lookup workId with
  | none => exact h
  | some r => exact (h.hold hr).sendAndLeave _

end State.Sound

/-- What is detached no longer runs. -/
theorem detachWork_spec (s : State) (workId : Nat) : (s.detachWork workId).cancelled = s.cancelled ∧
    ∀ w, (s.detachWork workId).running.lookup w = if w = workId then none else s.running.lookup w := by
  have hleave (s : State) (j : Invocation) :
      ((s.sendCancelled j).leave j).cancelled = s.cancelled ∧ ((s.sendCancelled j).leave j).running = s.running := by
    obtain ⟨responses, hs, -⟩ := sendResponse_spec s j (.error 503 "server is shutting down")
    rw [State.sendCancelled, hs, State.leave, State.releaseInFlight]
    cases (State.finish { s with responses } j).states.lookup j.runtime.id <;> exact ⟨rfl, rfl⟩
  unfold State.detachWork
  cases hr : s.running.lookup workId with
  | none =>
    refine ⟨rfl, fun w => ?_⟩
    split_ifs with heq
    · rw [heq]
      exact hr
    · rfl
  | some r =>
    obtain ⟨hcancelled, hrunning⟩ := hleave { s with running := s.running.remove workId } r.invocation
    exact ⟨hcancelled, fun w => by rw [elim_some, hrunning, lookup_remove]⟩

structure State.Dispatching (group : TriggerRuntime → γ) (s : State) (ready : List QueuedInvocation) : Prop where
  sound : s.Sound group [] ready
  live : ∀ r ∈ s.running.values, r.invocation.runtime.id ∉ s.cancelled
  ready : ∀ q ∈ ready, q.invocation.runtime.id ∉ s.cancelled

namespace State.Sound

variable (h : s.Sound group [] [])
include h

/-- What still runs after the work of a runtime was detached is of another one. -/
theorem detachRunningForRuntime (id : Nat) :
    (s.detachRunningForRuntime id).Sound group [] [] ∧ (s.detachRunningForRuntime id).cancelled = s.cancelled ∧
      ∀ w r, (s.detachRunningForRuntime id).running.lookup w = some r →
        s.running.lookup w = some r ∧ r.invocation.runtime.id ≠ id := by
  have hfold (ids : List Nat) (s : State) (h : s.Sound group [] []) :
      (ids.foldl State.detachWork s).Sound group [] [] ∧ (ids.foldl State.detachWork s).cancelled = s.cancelled ∧
        ∀ w, (ids.foldl State.detachWork s).running.lookup w = if w ∈ ids then none else s.running.lookup w := by
    induction ids generalizing s with
    | nil => exact ⟨h, rfl, by simp⟩
    | cons workId ids ih =>
      obtain ⟨hcancelled, hrunning⟩ := detachWork_spec s workId
      obtain ⟨hsound, hcancelled', hrunning'⟩ := ih _ (h.detachWork workId)
      refine ⟨hsound, hcancelled'.trans hcancelled, fun w => ?_⟩
      rw [foldl_cons, hrunning', hrunning]
      by_cases heq : w = workId <;> simp [heq]
  obtain ⟨hsound, hcancelled, hrunning⟩ := hfold _ s h
  refine ⟨hsound, hcancelled, fun w r hr => ?_⟩
  rw [State.detachRunningForRuntime, hrunning] at hr
  split_ifs at hr with hmem
  refine ⟨hr, fun heq => hmem ?_⟩
  exact mem_map.mpr ⟨(w, r), mem_filter.mpr ⟨KeyedList.lookup_eq_some.mp hr, by simpa using heq⟩, rfl⟩

/-- Runtimes that are cancelled are stopped one after the other. -/
theorem stopAll {ids : List Nat} (hids : ∀ id ∈ ids, id ∈ s.cancelled) :
    let s' := ids.foldl (fun s id => (s.drainCancelled id).setShuttingDown id) s
    s'.Sound group [] [] ∧ s'.cancelled = s.cancelled ∧ s'.running = s.running := by
  induction ids generalizing s with
  | nil => exact ⟨h, rfl, rfl⟩
  | cons id ids ih =>
    obtain ⟨hcancelled, hrunning⟩ := stop_keeps s id
    obtain ⟨hsound, hcancelled', hrunning'⟩ := ih (h.stop (hids id mem_cons_self))
      fun id' hid' => hcancelled ▸ hids id' (mem_cons_of_mem _ hid')
    exact ⟨hsound, hcancelled'.trans hcancelled, hrunning'.trans hrunning⟩

theorem detachCancelledRuntimes : s.detachCancelledRuntimes.Dispatching group [] := by
  have hfold (ids : List Nat) (s : State) (h : s.Sound group [] []) :
      (ids.foldl State.detachRunningForRuntime s).Sound group [] [] ∧
      (ids.foldl State.detachRunningForRuntime s).cancelled = s.cancelled ∧
      ∀ w r, (ids.foldl State.detachRunningForRuntime s).running.lookup w = some r →
        s.running.lookup w = some r ∧ r.invocation.runtime.id ∉ ids := by
    induction ids generalizing s with
    | nil => exact ⟨h, rfl, fun _ _ hr => ⟨hr, nofun⟩⟩
    | cons id ids ih =>
      obtain ⟨hsound, hcancelled, hrunning⟩ := h.detachRunningForRuntime id
      obtain ⟨hsound', hcancelled', hrunning'⟩ := ih _ hsound
      refine ⟨hsound', hcancelled'.trans hcancelled, fun w r hr => ?_⟩
      obtain ⟨hr, hids⟩ := hrunning' w r hr
      obtain ⟨hr, hid⟩ := hrunning w r hr
      exact ⟨hr, by simp [hid, hids]⟩
  have hstopping : ∀ id ∈ s.states.keys.filter fun id => (s.states.lookup id).any s.isStopping, id ∈ s.cancelled := by
    intro id hid
    obtain ⟨st, hst, hstopping⟩ := (Option.any_eq_true _ _).mp (mem_filter.mp hid).2
    exact h.mem_cancelled_of_isStopping hst hstopping
  obtain ⟨hstopped, hcancelled, hrunning⟩ := h.stopAll hstopping
  obtain ⟨hsound, hcancelled', hrunning'⟩ := hfold _ _ hstopped
  refine ⟨hsound, fun r hr hmem => ?_, nofun⟩
  have hmem : r.invocation.runtime.id ∈ s.cancelled := hcancelled ▸ hcancelled' ▸ hmem
  obtain ⟨w, hw⟩ := mem_values.mp hr
  obtain ⟨hw, hids⟩ := hrunning' w r hw
  refine hids (mem_filter.mpr ?_)
  rw [hrunning] at hw
  -- the runtime has a state, and that is stopping
  obtain ⟨st, hst, hruntime⟩ :=
      h.accounted.hosted r.invocation (mem_append_left _ (mem_append_left _ (mem_append_right _
    (mem_map_of_mem (mem_values_of_lookup hw)))))
  refine ⟨mem_keys_iff.mpr (by rw [hst]; rfl), ?_⟩
  rw [hst, Option.any_some, State.isStopping, State.isCancelled, ← hruntime]
  simp [hmem]

end State.Sound

namespace State.Dispatching

theorem takeReady (h : s.Dispatching group ready) (id : Nat) :
    (State.takeReady (s, ready) id).1.Dispatching group (State.takeReady (s, ready) id).2 := by
  unfold State.takeReady
  cases hst : s.states.lookup id with
  | none => exact h
  | some st =>
    simp only [elim_some]
    split_ifs with hstopping
    · obtain ⟨hcancelled, hrunning⟩ := stop_keeps s id
      exact ⟨h.sound.stop (h.sound.mem_cancelled_of_isStopping hst hstopping),
        fun r hr => hcancelled ▸ h.live r (hrunning ▸ hr), fun q hq => hcancelled ▸ h.ready q hq⟩
    · obtain ⟨hqueue, hcount, hbound⟩ := popReady_spec st.runtime.maxConcurrency st.queue st.inFlight
      have hkeyed : ∀ id st, s.states.lookup id = some st → ∀ q ∈ st.queue, q.invocation.runtime.id = id := by
        intro id st hst q hq
        obtain ⟨hid, -, hown⟩ := h.sound.accounted.keyed id st hst
        rw [hown q hq, hid]
      have hdown : st.shuttingDown = false := by
        rw [isStopping, Bool.or_eq_true_iff, not_or] at hstopping
        simpa using hstopping.1
      have htake := h.sound.accounted.take hst hqueue (hcount ▸ hbound (h.sound.accounted.bounded id st hst)) hdown
      rw [← hcount] at htake
      refine ⟨{ h.sound with accounted := htake.perm ?_, ordered := ?_ }, h.live,
        fun q hq => (mem_append.mp hq).elim (h.ready q) fun hq hcancelled => hstopping ?_⟩
      · simp only [inFlight, map_append, append_nil, ← append_assoc]
        exact ((perm_append_comm.append_right _).append_right _).append_right _
      · refine (h.sound.ordered.take hst hqueue hkeyed _).shrink (fun q hq => ?_) (refl _)
        rw [← append_assoc]
        exact (perm_append_comm.append_right _).mem_iff.mp hq
      · have hown := (h.sound.accounted.keyed id st hst).2.2 q (hqueue ▸ mem_append_left _ hq)
        have hcancelled : q.invocation.runtime.id ∈ s.cancelled := hcancelled
        rw [isStopping, isCancelled, ← hown]
        simp [hcancelled]

theorem submitWorker (h : s.Dispatching group (q :: ready)) : (s.submitWorker q).Dispatching group ready := by
  have hlive := h.ready q mem_cons_self
  refine ⟨h.sound.submitWorker hlive, fun r hr => ?_, fun q hq => h.ready q (mem_cons_of_mem _ hq)⟩
  rcases mem_cons.mp ((values_put_perm ..).mem_iff.mp hr) with rfl | hr
  · exact hlive
  · exact h.live r (values_remove_subset _ _ hr)

variable (h : s.Dispatching group [])
include h

theorem dispatchReady (order : List Nat) : (s.dispatchReady order).Dispatching group [] := by
  have htaken := List.foldlRecOn (motive := fun acc : State × List QueuedInvocation => acc.1.Dispatching group acc.2)
    order State.takeReady (b := (s, [])) h fun acc hacc id _ => hacc.takeReady id
  have hsubmitted (ready : List QueuedInvocation) (s : State) (h : s.Dispatching group ready) :
      (ready.foldl State.submitWorker s).Dispatching group [] := by
    induction ready generalizing s with
    | nil => exact h
    | cons q ready ih => exact ih _ h.submitWorker
  exact hsubmitted _ _ htaken

theorem removeStoppedStates : s.removeStoppedStates.Dispatching group [] := by
  refine List.foldlRecOn (motive := (Dispatching group · [])) _ _ h fun s h id _ => ?_
  unfold removeStopped
  cases hst : s.states.lookup id with
  | none => exact h
  | some st =>
    simp only [elim_some]
    split_ifs with hstopped
    · exact { h with sound := { h.sound with
        accounted := h.sound.accounted.removeStopped hst hstopped.1 hstopped.2
        ordered := h.sound.ordered.mono (fun _ x hx => .inr ⟨x, lookup_of_remove hx, rfl⟩) (refl _)
          (refl _) (refl _) le_rfl } }
    · exact h

theorem serial : s.Serial group where
  inOrder := h.sound.ordered.sorted
  noOverlap w w' r r' hr hr' hrivals := by
    by_contra hne
    have hactive {w : Nat} {r : RunningInvocation} (hr : s.running.lookup w = some r) :
        r.invocation ∈ queuedIn s.states ++ (s.active []).map QueuedInvocation.invocation :=
      mem_append_right _ (mem_map.mpr ⟨r.queued,
        mem_append_right _ (mem_map_of_mem (mem_values_of_lookup hr)), rfl⟩)
    have hsame := h.sound.runtime_eq (hactive hr) (hactive hr') (h.live r (mem_values_of_lookup hr))
      (h.live r' (mem_values_of_lookup hr')) hrivals.2.2
    have hother : r' ∈ (s.running.remove w).values :=
      mem_values.mpr ⟨w', by rw [lookup_remove, if_neg (Ne.symm hne), hr']⟩
    refine (h.sound.hold hr).alone hrivals.1 ?_ hsame
    exact mem_append_left _ (mem_append_left _ (mem_append_right _ (mem_map_of_mem hother)))

end State.Dispatching

structure State.Tidy (group : TriggerRuntime → γ) (s : State) : Prop where
  sound : s.Sound group [] []
  serial : s.Serial group

namespace State.Tidy

theorem start (workers : List String) : (start workers).Tidy group where
  sound := {
    accounted := ⟨nofun, nofun, nofun, nofun, nofun, fun _ => rfl, nofun, List.Pairwise.nil⟩
    once := nodup_nil
    answers := nofun
    workIds _ _ := rfl
    retryDelayIds _ _ := rfl
    ordered := ⟨nofun, nofun, nofun, nofun, nofun, nofun, nofun, List.Pairwise.nil⟩ }
  serial := ⟨List.Pairwise.nil, nofun⟩

theorem step (h : s.Tidy group) {a : Action} (hguard : s.Admits group a) (hstep : s.step a = some s') :
    s'.Tidy group := by
  cases a with
  | register runtime =>
    simp only [State.step] at hstep
    split_ifs at hstep with hfresh
    cases hstep
    have hknown := fun j hj => hfresh _ (h.sound.known_active (j := j) hj).1
    exact ⟨{ h.sound with accounted := h.sound.accounted.register hfresh, ordered := h.sound.ordered.register hknown },
      h.serial.inOrder, h.serial.noOverlap⟩
  | cancel id =>
    cases hstep
    exact ⟨h.sound.cancel id, h.serial.inOrder, h.serial.noOverlap⟩
  | event e order =>
    obtain ⟨handled, hhandle, hstep⟩ := bind_eq_some_iff.mp hstep
    split_ifs at hstep
    cases hstep
    have hdriven : (handled.driveStates order).Dispatching group [] :=
      ((h.sound.handle hguard hhandle).detachCancelledRuntimes.dispatchReady order).removeStoppedStates
    exact ⟨hdriven.sound, hdriven.serial⟩

end State.Tidy

end

def State.inFlightOf (s : State) (id : Nat) : Nat := (s.states.lookup id).elim 0 TriggerState.inFlight

/-- Every invocation is in one place, the counters are in their bounds, every request is answered once, and a released
waiter has no invocation left. -/
structure State.Kept (s : State) : Prop where
  placed : ∀ n, ofNumber n (queuedIn s.states ++ s.inFlight [] ++ s.finished) = if n < s.next then 1 else 0
  counted : ∀ runtime ∈ s.runtimes, s.inFlightOf runtime.id = ofRuntime runtime.id (s.inFlight []) ∧
    s.inFlightOf runtime.id ≤ runtime.maxConcurrency
  answeredOnce : s.answered.Nodup
  answered : ∀ j ∈ s.finished, j.request = true → j.number ∈ s.answered
  released : ∀ e ∈ s.released, ∀ j ∈ queuedIn s.states ++ s.inFlight [], j.runtime.id ≠ e.2

theorem State.Sound.kept {γ : Type*} {group : TriggerRuntime → γ} {s : State} (h : s.Sound group [] []) : s.Kept where
  placed := h.accounted.placed
  counted runtime hruntime := by
    unfold State.inFlightOf
    cases hst : s.states.lookup runtime.id with
    | none =>
      refine ⟨(ofRuntime_of_forall_ne fun j hj heq => ?_).symm, Nat.zero_le _⟩
      obtain ⟨st, hst', -⟩ := h.accounted.hosted j hj
      cases hst.symm.trans (heq ▸ hst')
    | some st =>
      obtain ⟨hid, hmem, -⟩ := h.accounted.keyed _ st hst
      refine ⟨h.accounted.counted _ st hst, ?_⟩
      rw [← h.accounted.runtime_eq hmem hruntime hid]
      exact h.accounted.bounded _ st hst
  answeredOnce := h.once
  answered j hj := h.answers j (mem_append_left _ hj)
  released e he j hj heq := by
    have hnone := (h.accounted.released e he).2
    rcases mem_append.mp hj with hj | hj
    · obtain ⟨id, st, hst, q, hq, rfl⟩ := mem_queuedIn.mp hj
      obtain ⟨hid, -, hown⟩ := h.accounted.keyed id st hst
      rw [← heq, hown q hq, hid, hst] at hnone
      cases hnone
    · obtain ⟨st, hst, -⟩ := h.accounted.hosted j hj
      rw [← heq, hst] at hnone
      cases hnone

/-- The books are kept in every run, and each registration of a serial trigger has its attempts in order and one at a
time; so has the trigger if the older ones are cancelled first. -/
theorem scheduler_keeps_accounts {workers : List String} {actions : List Action} {s : State}
    (hrun : run State.step (start workers) actions = some s) :
    s.Kept ∧ s.Serial TriggerRuntime.id ∧
      (Guarded State.step (State.Admits TriggerRuntime.key) (start workers) actions → s.Serial TriggerRuntime.key) := by
  have htidy : s.Tidy TriggerRuntime.id := by
    refine invariant_of_step (fun {_ a _} h hstep => h.step ?_ hstep) (.start workers) hrun
    -- no other runtime has the id
    cases a with
    | event e order =>
      cases e with
      | enqueue id request => exact fun r _ r' _ hid hgroup hlt => absurd (hgroup.trans hid) (Nat.ne_of_lt hlt)
      | _ => trivial
    | _ => trivial
  refine ⟨htidy.sound.kept, htidy.serial, fun hguard => ?_⟩
  have hkeys : s.Tidy TriggerRuntime.key := invariant (State.Tidy.step ·) (.start workers) hguard hrun
  exact hkeys.serial

private def registration (id : Nat) : TriggerRuntime := ⟨id, (0, 0), 1, .log, 1⟩

/-- The older registration is cancelled before the next one is invoked, and its attempt no longer runs. -/
theorem cancelled_registration_gives_way :
    ∃ s, run State.step (start ["worker"]) [.register (registration 1), .event (.enqueue 1 true) [1],
        .register (registration 2), .cancel 1, .event (.enqueue 2 true) [1, 2]] = some s ∧
      s.running.keys = [1] ∧ s.answered = [0] ∧ s.Kept ∧ s.Serial TriggerRuntime.key := by
  refine exists_and_and (by decide +kernel) fun s hrun _ _ => ?_
  obtain ⟨hkept, -, hserial⟩ := scheduler_keeps_accounts hrun
  exact ⟨hkept, hserial (by decide +kernel)⟩

/-- The next registration is found, and invoked, before the older one is cancelled: both run. -/
theorem registrations_overlap :
    ∃ s, run State.step (start ["worker"]) [.register (registration 1), .event (.enqueue 1 true) [1],
        .register (registration 2), .event (.enqueue 2 true) [1, 2]] = some s ∧ ¬ s.Serial TriggerRuntime.key := by
  refine exists_of_decide (fun s => s.running.lookup 0 = some ⟨⟨registration 1, 0, true⟩, 1, "worker"⟩ ∧
    s.running.lookup 1 = some ⟨⟨registration 2, 1, true⟩, 1, "worker"⟩) (by decide +kernel)
    fun s hrun ⟨hfirst, hsecond⟩ => ?_
  exact fun hserial => absurd (hserial.noOverlap 0 1 _ _ hfirst hsecond ⟨rfl, rfl, rfl⟩) (by decide)

end VarveDB.Scheduler
