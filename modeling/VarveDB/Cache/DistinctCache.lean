import VarveDB.Library.BoundedHeap
import VarveDB.Library.IndexMap
import VarveDB.Library.Runs

/-! The distinct value cache: a tree with one level for each cached column. -/
namespace VarveDB.DistinctCache
open Library Runs List

structure Row where
  fields : List (Nat × String)
  time : Int

abbrev Combination := List (Option String)

def Node : Nat → Type
  | 0 => Unit
  | n + 1 => IndexMap (Option String) (Int × Node n)

variable (nToRemove : Nat)

namespace Node

def children {n : Nat} (node : Node (n + 1)) : IndexMap (Option String) (Int × Node n) := node

def default : (n : Nat) → Node n
  | 0 => ()
  | _ + 1 => KeyedList.empty Prod.fst

def push : {n : Nat} → Node n → Combination → Int → Node n × Bool
  | 0, node, _, _ => (node, false)
  | _ + 1, node, [], _ => (node, false)
  | n + 1, node, value :: values, time =>
    match node.children.lookup value with
    | some (_, below) => (node.children.put value (time, (push below values time).1), (push below values time).2)
    | none => (node.children.put value (time, (push (default n) values time).1), true)

def removeBefore (timeNs : Int) : {n : Nat} → Node n → Node n × Bool
  | 0, node => (node, false)
  | _ + 1, node =>
    let visited := node.children.mapValues fun _ entry =>
      if entry.1 > timeNs then (entry, true) else
        ((entry.1, (removeBefore timeNs entry.2).1), (removeBefore timeNs entry.2).2)
    let kept := IndexMap.mapValues (fun _ entry => entry.1) (visited.retain fun entry => entry.2.2)
    (kept, kept.entries.isEmpty)

/-- The times below an entry of the time `lastSeen`, offered to a heap of at most `nToRemove` whose top is
the newest. -/
def findNOldest (nToRemove : Nat) : {n : Nat} → Int → Node n → List Int → List Int
  | 0, lastSeen, _, heap => BoundedHeap.offer id nToRemove heap lastSeen
  | _ + 1, _, node, heap =>
      node.children.values.foldl (fun heap entry => findNOldest nToRemove entry.1 entry.2 heap) heap

/-- The source panics on an empty heap. -/
def removeNOldest {n : Nat} (node : Node n) : Node n :=
  match BoundedHeap.top id (findNOldest nToRemove 0 node []) with
  | some time => (node.removeBefore time).1
  | none => node

def cardinality : {n : Nat} → Node n → Nat
  | 0, _ => 1
  | _ + 1, node => (node.children.values.map fun entry => cardinality entry.2).sum

def leaves : {n : Nat} → Int → Node n → List (Combination × Int)
  | 0, time, _ => [([], time)]
  | _ + 1, _, node => node.children.entries.flatMap fun entry =>
    (leaves entry.2.1 entry.2.2).map fun leaf => (entry.1 :: leaf.1, leaf.2)

def Leafy : {n : Nat} → Node n → Prop
  | 0, _ => True
  | _ + 1, node => ∀ entry ∈ node.children.entries, leaves entry.2.1 entry.2.2 ≠ [] ∧ Leafy entry.2.2

end Node

structure Config (n : Nat) where
  columnIds : List Nat
  length_columnIds : columnIds.length = n + 1
  maxCardinality : Nat
  maxAge : Nat

structure State (n : Nat) where
  data : Node (n + 1)
  cardinality : Nat
  pushed : List (Combination × Int)
  pruned : Option Int

def State.new (n : Nat) : State n := ⟨Node.default _, 0, [], none⟩

namespace Config
variable {n : Nat} (config : Config n)

def values (row : Row) : Combination :=
  config.columnIds.map fun id => row.fields.findSome? fun field => if field.1 = id then some field.2 else none

def push (s : State n) (row : Row) : State n :=
  let (data, isNew) := s.data.push (config.values row) row.time
  ⟨data, if isNew then s.cardinality + 1 else s.cardinality, s.pushed ++ [(config.values row, row.time)], s.pruned⟩

def expiredTimeNs (now : Int) : Int := now - config.maxAge

def prune (s : State n) (now : Int) : State n :=
  let data := (s.data.removeBefore (config.expiredTimeNs now)).1
  let data := if data.cardinality > config.maxCardinality then
      data.removeNOldest (data.cardinality - config.maxCardinality)
    else data
  ⟨data, data.cardinality, s.pushed, some (config.expiredTimeNs now)⟩

end Config

inductive Action where
  | push (row : Row)
  | prune (now : Int)

def Config.step {n : Nat} (config : Config n) (s : State n) : Action → Option (State n)
  | .push row => some (config.push s row)
  | .prune now => some (config.prune s now)

variable (pushed : List (Combination × Int))

def mostRecent (c : Combination) : Option Int :=
  pushed.foldl (fun latest p => if p.1 = c then some (latest.elim p.2 (max · p.2)) else latest) none

def unexpired (expired : Int) : List Combination :=
  (pushed.map Prod.fst).dedup.filter fun c => (mostRecent pushed c).any (expired < ·)

structure Pruned {n : Nat} (config : Config n) (s : State n) (expired : Int) : Prop where
  exact (h : (unexpired s.pushed expired).length ≤ config.maxCardinality) (c : Combination) :
    c ∈ (s.data.leaves 0).map Prod.fst ↔ c ∈ unexpired s.pushed expired
  newest (h : config.maxCardinality < (unexpired s.pushed expired).length) :
    ((s.data.leaves 0).map Prod.fst).length = config.maxCardinality ∧
    ∀ c ∈ (s.data.leaves 0).map Prod.fst, c ∈ unexpired s.pushed expired ∧
      ∀ d ∈ unexpired s.pushed expired, d ∉ (s.data.leaves 0).map Prod.fst →
        ∀ t u, mostRecent s.pushed c = some t → mostRecent s.pushed d = some u → u ≤ t
  distinct : ((s.data.leaves 0).map Prod.fst).Nodup
  leafy : s.data.Leafy

/-- No two of the combinations that agree on the first column are on different sides of `time`. -/
def Separated (leaves : List (Combination × Int)) (time : Int) : Prop :=
  ∀ a ∈ leaves, ∀ b ∈ leaves, a.1.head? = b.1.head? → (a.2 ≤ time ↔ b.2 ≤ time)

instance (leaves : List (Combination × Int)) (time : Int) : Decidable (Separated leaves time) := by
  unfold Separated
  infer_instance

/-- The expiry time is an `i64` and has not gone back; and there is nothing to remove, or the number of columns is odd
and whole values of the first column are removed. -/
def Config.Prunable {n : Nat} (config : Config n) (s : State n) (now : Int) : Prop :=
  let leaves := s.data.leaves 0
  let fresh := leaves.filter fun leaf => config.expiredTimeNs now < leaf.2
  (-2 ^ 63 ≤ config.expiredTimeNs now ∧ config.expiredTimeNs now < 2 ^ 63) ∧
    s.pruned.all (· ≤ config.expiredTimeNs now) ∧
  (fresh.length = leaves.length ∧ fresh.length ≤ config.maxCardinality ∨
    Odd (n + 1) ∧ Separated leaves (config.expiredTimeNs now) ∧ (config.maxCardinality < fresh.length →
      ∃ cut ∈ fresh, (fresh.filter fun leaf => cut.2 < leaf.2).length = config.maxCardinality ∧ Separated fresh cut.2))

def Config.InOrder {n : Nat} (config : Config n) (s : State n) : Action → Prop
  | .push row => (mostRecent s.pushed (config.values row)).all (· ≤ row.time)
  | .prune now => config.Prunable s now

instance {n : Nat} (config : Config n) (s : State n) (now : Int) : Decidable (config.Prunable s now) := by
  unfold Config.Prunable
  infer_instance

instance {n : Nat} (config : Config n) (s : State n) : (a : Action) → Decidable (config.InOrder s a)
  | .push row => inferInstanceAs (Decidable ((mostRecent s.pushed (config.values row)).all (· ≤ row.time) = true))
  | .prune now => inferInstanceAs (Decidable (config.Prunable s now))

variable {c : Combination} {t time : Int}

namespace Node
variable {n : Nat} {node : Node (n + 1)}

theorem length_leaves : {n : Nat} → (time : Int) → (node : Node n) → (node.leaves time).length = node.cardinality
  | 0, _, _ => rfl
  | _ + 1, _, node => by
    simp only [leaves, cardinality, length_flatMap, length_map, IndexMap.values, map_map]
    exact congrArg List.sum (map_congr_left fun entry _ => length_leaves entry.2.1 entry.2.2)

def Backed : {n : Nat} → Node n → Prop
  | 0, _ => True
  | _ + 1, node => ∀ entry ∈ node.children.entries,
    (∃ leaf ∈ leaves entry.2.1 entry.2.2, leaf.2 = entry.2.1) ∧ Backed entry.2.2

theorem Backed.leafy : {n : Nat} → {node : Node n} → node.Backed → node.Leafy
  | 0, _, _ => trivial
  | _ + 1, _, h => fun entry hentry =>
    have ⟨⟨_, hleaf, _⟩, hbelow⟩ := h entry hentry
    ⟨ne_nil_of_mem hleaf, hbelow.leafy⟩

theorem mem_leaves {leaf : Combination × Int} : leaf ∈ node.leaves time ↔
      ∃ entry ∈ node.children.entries, ∃ below ∈ entry.2.2.leaves entry.2.1, leaf = (entry.1 :: below.1, below.2) := by
  simp only [leaves, mem_flatMap, mem_map, eq_comm]

private theorem removeBefore_entries (time : Int) (node : Node (n + 1)) : (node.removeBefore time).1.children.entries =
      (node.children.entries.filter fun entry => time < entry.2.1 ∨ (removeBefore time entry.2.2).2).map fun entry =>
        (entry.1, if time < entry.2.1 then entry.2 else (entry.2.1, (removeBefore time entry.2.2).1)) := by
  simp only [removeBefore, children, IndexMap.mapValues, KeyedList.entries_retain, filter_map, map_map]
  have hkept (entry : Option String × Int × Node n) : (if entry.2.1 > time then (entry.2, true)
        else ((entry.2.1, (removeBefore time entry.2.2).1), (removeBefore time entry.2.2).2)).2 =
      decide (time < entry.2.1 ∨ (removeBefore time entry.2.2).2 = true) := by
    by_cases h : time < entry.2.1 <;> simp [h]
  refine congrArg₂ List.map ?_ (filter_congr fun entry _ => hkept entry)
  funext entry
  by_cases h : time < entry.2.1 <;> simp [h]

private theorem removeBefore_of_stale {time : Int} : {n : Nat} → {t : Int} → {node : Node n} → node.Backed →
    node.leaves t ≠ [] → (∀ leaf ∈ node.leaves t, leaf.2 ≤ time) → (node.removeBefore time).2 = decide (Odd n)
  | 0, _, _, _, _, _ => by simp [removeBefore]
  | n + 1, t, node, hbacked, hleaves, hold => by
    have hentry : ∀ entry ∈ node.children.entries,
        ¬ time < entry.2.1 ∧ (entry.2.2.removeBefore time).2 = decide (Odd n) := by
      intro entry hmem
      have hbelow : ∀ leaf ∈ entry.2.2.leaves entry.2.1, leaf.2 ≤ time := fun leaf hleaf =>
        hold (entry.1 :: leaf.1, leaf.2) (mem_leaves.mpr ⟨entry, hmem, leaf, hleaf, rfl⟩)
      obtain ⟨⟨leaf, hleaf, htime⟩, hback⟩ := hbacked entry hmem
      exact ⟨Int.not_lt.mpr (htime ▸ hbelow leaf hleaf), removeBefore_of_stale hback (ne_nil_of_mem hleaf) hbelow⟩
    have hfilter : (node.children.entries.filter fun entry => time < entry.2.1 ∨ (removeBefore time entry.2.2).2) =
        node.children.entries.filter fun _ => decide (Odd n) :=
      filter_congr fun entry hmem => by simp [(hentry entry hmem).1, (hentry entry hmem).2]
    have hsome : node.children.entries ≠ [] := fun h => hleaves (by simp [leaves, h])
    change (node.removeBefore time).1.children.entries.isEmpty = _
    rw [removeBefore_entries, hfilter]
    by_cases hodd : Odd n
    · simp [hodd, hsome, Nat.odd_add_one]
    · simp [hodd, Nat.odd_add_one]

private theorem flatMap_filter_of_side {α β : Type*} {f : α → List β} {p : α → Bool} {q : β → Bool} {l : List α}
    (h : ∀ a ∈ l, ∀ b ∈ f a, q b = p a) : (l.filter p).flatMap f = (l.flatMap f).filter q := by
  induction l with
  | nil => rfl
  | cons a l ih =>
    obtain ⟨ha, hl⟩ := forall_mem_cons.mp h
    rw [filter_cons, flatMap_cons, filter_append, ← ih hl]
    cases hp : p a with
    | true =>
      have hall : (f a).filter q = f a := filter_eq_self.mpr fun b hb => (ha b hb).trans hp
      rw [hall]
      rfl
    | false =>
      have hnone : (f a).filter q = [] := filter_eq_nil_iff.mpr fun b hb => by simp [ha b hb, hp]
      rw [hnone]
      rfl

private theorem removeBefore_of_separated (hbacked : node.Backed)
    (hsep : Separated (node.leaves t) time) (hodd : Odd (n + 1) ∨ ∀ leaf ∈ node.leaves t, time < leaf.2) :
    (node.removeBefore time).1.leaves t = (node.leaves t).filter (fun leaf => time < leaf.2) ∧
      (node.removeBefore time).1.Backed := by
  have hside : ∀ entry ∈ node.children.entries, ∀ below ∈ entry.2.2.leaves entry.2.1,
      (time < below.2 ↔ time < entry.2.1) := by
    intro entry hmem below hbelow
    obtain ⟨⟨leaf, hleaf, htime⟩, -⟩ := hbacked entry hmem
    have hiff := hsep (entry.1 :: below.1, below.2) (mem_leaves.mpr ⟨entry, hmem, below, hbelow, rfl⟩)
      (entry.1 :: leaf.1, leaf.2) (mem_leaves.mpr ⟨entry, hmem, leaf, hleaf, rfl⟩) rfl
    rw [← htime, ← Int.not_le, ← Int.not_le]
    exact not_congr hiff
  have hdropped : ∀ entry ∈ node.children.entries, ¬ time < entry.2.1 → (entry.2.2.removeBefore time).2 = false := by
    intro entry hmem hold
    obtain ⟨⟨leaf, hleaf, htime⟩, hback⟩ := hbacked entry hmem
    rcases hodd with hodd | hnew
    · rw [removeBefore_of_stale hback (ne_nil_of_mem hleaf) fun below hbelow =>
        Int.not_lt.mp (mt (hside entry hmem below hbelow).mp hold)]
      exact decide_eq_false (Nat.odd_add_one.mp hodd)
    · exact absurd (htime ▸ hnew (entry.1 :: leaf.1, leaf.2) (mem_leaves.mpr ⟨entry, hmem, leaf, hleaf, rfl⟩)) hold
  have hentries : (node.removeBefore time).1.children.entries =
      node.children.entries.filter fun entry => time < entry.2.1 := by
    rw [removeBefore_entries, filter_congr (q := fun entry => decide (time < entry.2.1)) fun entry hmem => ?_]
    · refine (map_congr_left fun entry hmem => ?_).trans (map_id _)
      rw [if_pos (of_decide_eq_true (mem_filter.mp hmem).2)]
      rfl
    · by_cases hold : time < entry.2.1
      · simp [hold]
      · simp [hold, hdropped entry hmem hold]
  refine ⟨?_, fun entry hmem => hbacked entry (mem_filter.mp (hentries ▸ hmem)).1⟩
  simp only [leaves, hentries]
  refine flatMap_filter_of_side fun entry hmem leaf hleaf => ?_
  obtain ⟨below, hbelow, rfl⟩ := mem_map.mp hleaf
  exact decide_eq_decide.mpr (hside entry hmem below hbelow)

private theorem filter_leaves_default (h : c.length = n) (t : Int) :
    ((default n).leaves t).filter (fun leaf => leaf.1 ≠ c) = [] := by
  cases n with
  | zero => simp [leaves, length_eq_zero_iff.mp h]
  | succ n => rfl

theorem leaves_push : {n : Nat} → (node : Node n) → {c : Combination} → c.length = n → (t₀ : Int) →
    ((node.push c t).1.leaves t).Perm ((c, t) :: (node.leaves t₀).filter fun leaf => leaf.1 ≠ c)
  | 0, _, c, h, _ => by simp [leaves, length_eq_zero_iff.mp h]
  | n + 1, node, v :: vs, h, t₀ => by
    let under (entry : Option String × Int × Node n) := (leaves entry.2.1 entry.2.2).map fun leaf =>
        (entry.1 :: leaf.1, leaf.2)
    let rest := (node.children.remove v).entries.flatMap under
    have hlength : vs.length = n := Nat.succ.inj h
    have hrest : rest.filter (fun leaf => leaf.1 ≠ v :: vs) = rest := by
      refine filter_eq_self.mpr fun leaf hleaf => decide_eq_true fun heq => ?_
      obtain ⟨entry, hmem, hunder⟩ := mem_flatMap.mp hleaf
      obtain ⟨below, -, rfl⟩ := mem_map.mp hunder
      exact of_decide_eq_true (mem_filter.mp hmem).2 (List.cons.inj heq).1
    have hput (below : Node n) (t₁ : Int) :
        (leaves t (show Node (n + 1) from node.children.put v (t, (below.push vs t).1))).Perm ((v :: vs, t) ::
          (((below.leaves t₁).filter fun leaf => leaf.1 ≠ vs).map (fun leaf => (v :: leaf.1, leaf.2)) ++ rest)) := by
      have hperm := (node.children.put v (t, (below.push vs t).1)).entries_perm v
      rw [IndexMap.lookup_put, if_pos rfl, IndexMap.remove_put] at hperm
      refine (hperm.flatMap_right under).trans ?_
      exact (((leaves_push below hlength t₁).map fun leaf => (v :: leaf.1, leaf.2)).append_right rest)
    have hleaves := ((node.children.entries_perm v).flatMap_right under).filter fun leaf => leaf.1 ≠ v :: vs
    rw [flatMap_append, filter_append, hrest] at hleaves
    cases hlook : node.children.lookup v with
    | some entry =>
      rw [hlook] at hleaves
      simp only [push, hlook]
      refine (hput entry.2 entry.1).trans (.cons _ (.trans (.of_eq ?_) hleaves.symm))
      simp [under, filter_map, Function.comp_def]
    | none =>
      rw [hlook] at hleaves
      simp only [push, hlook]
      refine (hput (default n) t).trans (.cons _ (.trans (.of_eq ?_) hleaves.symm))
      rw [filter_leaves_default hlength]
      rfl

private theorem push_snd : {n : Nat} → (node : Node n) → {c : Combination} → c.length = n → (t₀ : Int) →
    (node.push c t).2 = decide (c ∉ (node.leaves t₀).map Prod.fst)
  | 0, _, c, h, _ => by simp [push, leaves, length_eq_zero_iff.mp h]
  | n + 1, node, v :: vs, h, t₀ => by
    have hmem : v :: vs ∈ (node.leaves t₀).map Prod.fst ↔
        ∃ entry, node.children.lookup v = some entry ∧ vs ∈ (entry.2.leaves entry.1).map Prod.fst := by
      simp only [mem_map, mem_leaves, KeyedList.lookup_eq_some]
      constructor
      · rintro ⟨_, ⟨entry, hentry, below, hbelow, rfl⟩, heq⟩
        obtain ⟨rfl, rfl⟩ := List.cons.inj heq
        exact ⟨entry.2, hentry, below, hbelow, rfl⟩
      · rintro ⟨entry, hentry, below, hbelow, rfl⟩
        exact ⟨_, ⟨(v, entry), hentry, below, hbelow, rfl⟩, rfl⟩
    rw [Bool.eq_iff_iff, decide_eq_true_iff, hmem]
    cases hlook : node.children.lookup v with
    | some entry => simp [push, hlook, push_snd entry.2 (Nat.succ.inj h) entry.1]
    | none => simp [push, hlook]

private theorem backed_default : Backed (default n) := by
  cases n with
  | zero => trivial
  | succ n => exact fun _ hmem => absurd hmem not_mem_nil

private theorem Backed.push : {n : Nat} → {node : Node n} → node.Backed → {c : Combination} → c.length = n →
    (node.push c t).1.Backed
  | 0, _, _, _, _ => trivial
  | n + 1, node, hbacked, v :: vs, h => by
    have hput (below : Node n) (hbelow : below.Backed) :
        Backed (show Node (n + 1) from node.children.put v (t, (below.push vs t).1)) := by
      intro entry hmem
      have hlook : (node.children.put v (t, (below.push vs t).1)).lookup entry.1 = some entry.2 :=
        KeyedList.lookup_eq_some.mpr hmem
      rw [IndexMap.lookup_put] at hlook
      split_ifs at hlook with hv
      · rw [← some.inj hlook]
        refine ⟨⟨(vs, t), ?_, rfl⟩, hbelow.push (Nat.succ.inj h)⟩
        exact (leaves_push below (Nat.succ.inj h) t).mem_iff.mpr mem_cons_self
      · exact hbacked entry (KeyedList.lookup_eq_some.mp hlook)
    cases hlook : node.children.lookup v with
    | some entry =>
      simp only [Node.push, hlook]
      exact hput entry.2 (hbacked (v, entry) (KeyedList.lookup_eq_some.mp hlook)).2
    | none =>
      simp only [Node.push, hlook]
      exact hput (default n) backed_default

private theorem least_findNOldest {k : Nat} : {n : Nat} → {seen heap : List Int} → BoundedHeap.Least id k seen heap →
    (t : Int) → (node : Node n) →
    BoundedHeap.Least id k (seen ++ (node.leaves t).map Prod.snd) (node.findNOldest k t heap)
  | 0, _, _, h, t, _ => h.offer t
  | n + 1, seen, heap, h, t, node => by
    simp only [findNOldest, leaves, IndexMap.values, foldl_map]
    induction node.children.entries generalizing seen heap with
    | nil => simpa using h
    | cons entry entries ih =>
      have hrest := ih _ _ (least_findNOldest h entry.2.1 entry.2.2)
      simpa [map_append, Function.comp_def] using hrest

private theorem removeNOldest_of_cut {cut : Int} (hbacked : node.Backed)
    (hodd : Odd (n + 1)) (hsep : Separated (node.leaves 0) cut) (hpos : 0 < nToRemove)
    (hcount : ((node.leaves 0).filter fun leaf => leaf.2 ≤ cut).length = nToRemove) :
    (node.removeNOldest nToRemove).leaves 0 = (node.leaves 0).filter (fun leaf => cut < leaf.2) ∧
      (node.removeNOldest nToRemove).Backed := by
  obtain ⟨rest, hperm, hlength, hle⟩ := least_findNOldest (k := nToRemove) BoundedHeap.least_nil 0 node
  rw [nil_append] at hperm hlength
  generalize hheap : node.findNOldest nToRemove 0 [] = heap at hperm hlength hle
  have htimes : ((heap ++ rest).filter (· ≤ cut)).length = nToRemove := by
    rw [(hperm.filter _).length_eq, filter_map, length_map]
    exact hcount
  rw [filter_append, length_append] at htimes
  have hfull : heap.length = nToRemove := by
    rw [hlength, length_map]
    have := length_filter_le (fun leaf : Combination × Int => decide (leaf.2 ≤ cut)) (node.leaves 0)
    omega
  have hold : ∀ a ∈ heap, a ≤ cut := by
    by_contra hnot
    push Not at hnot
    obtain ⟨a, ha, hcut⟩ := hnot
    have hrest : rest.filter (· ≤ cut) = [] := filter_eq_nil_iff.mpr fun b hb => by
      simpa using hcut.trans_le (hle a ha b hb)
    rw [hrest, length_nil, Nat.add_zero, ← hfull] at htimes
    have := length_filter_eq_length_iff.mp htimes a ha
    exact hcut.not_ge (of_decide_eq_true this)
  have hnew : ∀ b ∈ rest, cut < b := by
    rw [filter_eq_self.mpr fun a ha => decide_eq_true (hold a ha), hfull] at htimes
    have hrest : rest.filter (· ≤ cut) = [] := eq_nil_of_length_eq_zero (by omega)
    exact fun b hb => by simpa using filter_eq_nil_iff.mp hrest b hb
  unfold removeNOldest
  rw [hheap]
  cases hmax : BoundedHeap.top id heap with
  | none =>
    rw [BoundedHeap.top, argmax_eq_none] at hmax
    simp [hmax] at hfull
    omega
  | some newest =>
    have hnewest : newest ∈ heap := argmax_mem hmax
    have hmost : ∀ a ∈ heap, a ≤ newest := fun a ha => le_of_mem_argmax (f := id) ha hmax
    have hside : ∀ leaf ∈ node.leaves 0, (newest < leaf.2 ↔ cut < leaf.2) := by
      intro leaf hleaf
      have hcut := hold newest hnewest
      rcases mem_append.mp (hperm.mem_iff.mpr (mem_map_of_mem hleaf)) with h | h
      · have := hmost _ h
        omega
      · have := hnew _ h
        omega
    have hsep' : Separated (node.leaves 0) newest := fun a ha b hb hhead => by
      have := hsep a ha b hb hhead
      have := hside a ha
      have := hside b hb
      omega
    obtain ⟨hleaves, hback⟩ := removeBefore_of_separated hbacked hsep' (.inl hodd)
    exact ⟨hleaves.trans (filter_congr fun leaf hleaf => decide_eq_decide.mpr (hside leaf hleaf)), hback⟩

end Node

section
variable {n : Nat} {config : Config n} {s : State n}

private theorem mostRecent_append (p : Combination × Int) (c : Combination) : mostRecent (pushed ++ [p]) c =
      if p.1 = c then some ((mostRecent pushed c).elim p.2 (max · p.2)) else mostRecent pushed c := by
  simp [mostRecent]

private theorem mem_unexpired {pushed : List (Combination × Int)} {expired : Int} :
    c ∈ unexpired pushed expired ↔ ∃ t, mostRecent pushed c = some t ∧ expired < t := by
  have hpushed : (mostRecent pushed c).isSome → c ∈ pushed.map Prod.fst := by
    induction pushed using List.reverseRecOn with
    | nil => simp [mostRecent]
    | append_singleton pushed p ih =>
      rw [mostRecent_append, map_append, mem_append]
      split_ifs with hp
      · simp [hp]
      · exact fun h => .inl (ih h)
  rw [unexpired, mem_filter, mem_dedup, Option.any_eq_true]
  simp only [decide_eq_true_eq, and_iff_right_iff_imp]
  rintro ⟨t, ht, -⟩
  exact hpushed (by simp [ht])

/-- What holds of the cache between calls; what was dropped is expired, or older than enough of what was kept. -/
structure Sound (config : Config n) (s : State n) : Prop where
  backed : s.data.Backed
  distinct : ((s.data.leaves 0).map Prod.fst).Nodup
  recent : ∀ leaf ∈ s.data.leaves 0, mostRecent s.pushed leaf.1 = some leaf.2
  cardinality : s.cardinality = (s.data.leaves 0).length
  dropped : ∀ c t, mostRecent s.pushed c = some t → (c, t) ∈ s.data.leaves 0 ∨ s.pruned.any (t ≤ ·) ∨
    config.maxCardinality ≤ ((s.data.leaves 0).filter fun leaf => t ≤ leaf.2).length

theorem Sound.new (config : Config n) : Sound config (State.new n) where
  backed := Node.backed_default
  distinct := nodup_nil
  recent := by simp [State.new, Node.leaves, Node.default, Node.children]
  cardinality := rfl
  dropped := by simp [State.new, mostRecent]

private theorem length_filter_ne {leaves : List (Combination × Int)}
    (h : (leaves.map Prod.fst).Nodup) (c : Combination) : (leaves.filter fun leaf => leaf.1 ≠ c).length =
      if c ∈ leaves.map Prod.fst then leaves.length - 1 else leaves.length := by
  have hkeys : (leaves.filter fun leaf => leaf.1 ≠ c).map Prod.fst = (leaves.map Prod.fst).erase c := by
    rw [h.erase_eq_filter, filter_map]
    refine congrArg _ (filter_congr fun leaf _ => ?_)
    by_cases hleaf : leaf.1 = c <;> simp [hleaf]
  rw [← length_map Prod.fst, hkeys, length_erase, length_map]

private theorem length_le_of_keys {as bs : List (Combination × Int)} (h : (as.map Prod.fst).Nodup)
    (hsub : as.map Prod.fst ⊆ bs.map Prod.fst) : as.length ≤ bs.length := by
  simpa using (subperm_of_subset h hsub).length_le

theorem Sound.push (h : Sound config s) {row : Row}
    (horder : (mostRecent s.pushed (config.values row)).all (· ≤ row.time)) : Sound config (config.push s row) := by
  have hlength : (config.values row).length = n + 1 := by
    rw [Config.values, length_map, config.length_columnIds]
  have hleaves := Node.leaves_push (t := row.time) s.data hlength 0
  have hnew := Node.push_snd (t := row.time) s.data hlength 0
  generalize hc : config.values row = c at horder hlength hleaves hnew
  have hroot : ((s.data.push c row.time).1.leaves 0).Perm
      ((c, row.time) :: (s.data.leaves 0).filter fun leaf => leaf.1 ≠ c) := hleaves
  have hrecent (d : Combination) : mostRecent (s.pushed ++ [(c, row.time)]) d =
      if c = d then some row.time else mostRecent s.pushed d := by
    rw [mostRecent_append]
    split_ifs with hd
    · subst hd
      cases hold : mostRecent s.pushed c with
      | none => rfl
      | some t =>
        rw [hold, Option.all_some, decide_eq_true_eq] at horder
        simp [max_eq_right horder]
    · rfl
  have hmem {leaf : Combination × Int} (hleaf : leaf ∈ s.data.leaves 0) (hne : leaf.1 ≠ c) :
      leaf ∈ (s.data.push c row.time).1.leaves 0 :=
    hroot.mem_iff.mpr (mem_cons_of_mem _ (mem_filter.mpr ⟨hleaf, decide_eq_true hne⟩))
  have hdistinct : (((s.data.push c row.time).1.leaves 0).map Prod.fst).Nodup := by
    refine (hroot.map Prod.fst).nodup_iff.mpr (nodup_cons.mpr ⟨?_, ?_⟩)
    · rintro hmem
      obtain ⟨leaf, hleaf, rfl⟩ := mem_map.mp hmem
      exact of_decide_eq_true (mem_filter.mp hleaf).2 rfl
    · exact h.distinct.sublist (filter_sublist.map _)
  unfold Config.push
  rw [hc]
  refine ⟨h.backed.push hlength, hdistinct, fun leaf hleaf => ?_, ?_, fun d t hd => ?_⟩
  · rw [hrecent]
    rcases mem_cons.mp (hroot.mem_iff.mp hleaf) with rfl | hold
    · rw [if_pos rfl]
    · obtain ⟨hold, hne⟩ := mem_filter.mp hold
      rw [if_neg (Ne.symm (of_decide_eq_true hne))]
      exact h.recent leaf hold
  · dsimp only
    rw [hroot.length_eq, length_cons, length_filter_ne h.distinct, hnew, h.cardinality]
    by_cases hin : c ∈ (s.data.leaves 0).map Prod.fst
    · have := length_pos_of_mem hin
      rw [length_map] at this
      simp only [hin, not_true_eq_false, decide_false, if_pos, Bool.false_eq_true, if_false]
      omega
    · simp [hin]
  · rw [hrecent] at hd
    split_ifs at hd with hcd
    · rw [← some.inj hd, ← hcd]
      exact .inl (hroot.mem_iff.mpr mem_cons_self)
    · refine (h.dropped d t hd).imp (fun hleaf => hmem hleaf (Ne.symm hcd)) (Or.imp_right fun hmax => hmax.trans ?_)
      refine length_le_of_keys (h.distinct.sublist (filter_sublist.map _)) fun e he => ?_
      obtain ⟨leaf, hleaf, rfl⟩ := mem_map.mp he
      obtain ⟨hleaf, hle⟩ := mem_filter.mp hleaf
      by_cases hne : leaf.1 = c
      · have hold := h.recent leaf hleaf
        rw [hne] at hold
        rw [hold, Option.all_some, decide_eq_true_eq] at horder
        refine mem_map.mpr ⟨(c, row.time), mem_filter.mpr ⟨hroot.mem_iff.mpr mem_cons_self, ?_⟩, hne.symm⟩
        exact decide_eq_true ((of_decide_eq_true hle).trans horder)
      · exact mem_map_of_mem (mem_filter.mpr ⟨hmem hleaf hne, hle⟩)

variable {now : Int}

/-- The leaves that a pruning keeps: the unexpired ones, or those after a cut that leaves as many as there may be. -/
theorem leaves_prune (hbacked : s.data.Backed) (h : config.Prunable s now) :
    (config.prune s now).data.Backed ∧ ∃ cut, config.expiredTimeNs now ≤ cut ∧
      (config.prune s now).data.leaves 0 = (s.data.leaves 0).filter (fun leaf => cut < leaf.2) ∧
      ((config.prune s now).data.leaves 0).length ≤ config.maxCardinality ∧
      (config.expiredTimeNs now = cut ∨ ((config.prune s now).data.leaves 0).length = config.maxCardinality) := by
  obtain ⟨-, -, h⟩ := h
  have hfirst : Separated (s.data.leaves 0) (config.expiredTimeNs now) ∧
      (Odd (n + 1) ∨ ∀ leaf ∈ s.data.leaves 0, config.expiredTimeNs now < leaf.2) := by
    rcases h with ⟨hall, -⟩ | ⟨hodd, hsep, -⟩
    · have hnew := fun leaf hleaf => of_decide_eq_true (length_filter_eq_length_iff.mp hall leaf hleaf)
      exact ⟨fun a ha b hb _ => iff_of_false (hnew a ha).not_ge (hnew b hb).not_ge, .inr hnew⟩
    · exact ⟨hsep, .inl hodd⟩
  obtain ⟨hleaves, hback⟩ := Node.removeBefore_of_separated hbacked hfirst.1 hfirst.2
  have hcard := congrArg List.length hleaves
  rw [Node.length_leaves] at hcard
  simp only [Config.prune]
  split_ifs with hmany
  · obtain ⟨-, hfew⟩ | ⟨hodd, -, hcut⟩ := h
    · omega
    · obtain ⟨cut, hfresh, hcount, hsep⟩ := hcut (by omega)
      have hexpired := of_decide_eq_true (mem_filter.mp hfresh).2
      rw [← hleaves] at hcount hsep
      have hsplit := length_eq_length_filter_add (l := (s.data.removeBefore (config.expiredTimeNs now)).1.leaves 0)
        fun leaf => decide (cut.2 < leaf.2)
      rw [hcount, Node.length_leaves] at hsplit
      simp only [← decide_not, Int.not_lt] at hsplit
      obtain ⟨hkept, hback'⟩ := Node.removeNOldest_of_cut
        ((s.data.removeBefore (config.expiredTimeNs now)).1.cardinality - config.maxCardinality) hback hodd hsep
        (by omega) (by omega)
      refine ⟨hback', cut.2, hexpired.le, ?_, hkept ▸ hcount.le, .inr (hkept ▸ hcount)⟩
      rw [hkept, hleaves, filter_filter]
      refine filter_congr fun leaf _ => ?_
      rw [← Bool.decide_and]
      exact decide_eq_decide.mpr ⟨And.left, fun hlt => ⟨hlt, hexpired.trans hlt⟩⟩
  · exact ⟨hback, _, le_rfl, hleaves, by rw [Node.length_leaves]; omega, .inl rfl⟩

/-- An unexpired combination that is not kept is no more recent than any that is. -/
private theorem Sound.kept (h : Sound config s) (hprune : config.Prunable s now)
    (hrecent : mostRecent s.pushed c = some t) (hfresh : config.expiredTimeNs now < t)
    (hnot : (c, t) ∉ (config.prune s now).data.leaves 0) :
    ((config.prune s now).data.leaves 0).length = config.maxCardinality ∧
      ∀ leaf ∈ (config.prune s now).data.leaves 0, t ≤ leaf.2 := by
  obtain ⟨-, cut, hcut, hleaves, hfew, hmax⟩ := leaves_prune h.backed hprune
  generalize (config.prune s now).data.leaves 0 = kept at *
  have hold : cut < t → (c, t) ∉ s.data.leaves 0 := fun hlt hin =>
    hnot (hleaves ▸ mem_filter.mpr ⟨hin, decide_eq_true hlt⟩)
  rcases Int.lt_or_le cut t with hlt | hle
  · obtain hin | hpruned | hcount := h.dropped c t hrecent
    · exact absurd hin (hold hlt)
    · obtain ⟨last, hlast, hle⟩ := Option.any_eq_true _ _ |>.mp hpruned
      have hclock := hprune.2.1
      rw [hlast, Option.all_some, decide_eq_true_eq] at hclock
      exact absurd (hfresh.trans_le (of_decide_eq_true hle)) hclock.not_gt
    · have hsame : (s.data.leaves 0).filter (fun leaf => t ≤ leaf.2) = kept.filter fun leaf => t ≤ leaf.2 := by
        rw [hleaves, filter_filter]
        refine filter_congr fun leaf _ => ?_
        rw [← Bool.decide_and]
        exact decide_eq_decide.mpr ⟨fun hle => ⟨hle, hlt.trans_le hle⟩, And.left⟩
      rw [hsame] at hcount
      have hlength := length_filter_le (fun leaf : Combination × Int => decide (t ≤ leaf.2)) kept
      have hall : (kept.filter fun leaf => t ≤ leaf.2).length = kept.length := by omega
      exact ⟨by omega, fun leaf hleaf => of_decide_eq_true (length_filter_eq_length_iff.mp hall leaf hleaf)⟩
  · refine ⟨hmax.resolve_left (by omega), fun leaf hleaf => ?_⟩
    rw [hleaves, mem_filter, decide_eq_true_eq] at hleaf
    omega

theorem Sound.prune (h : Sound config s) (hprune : config.Prunable s now) : Sound config (config.prune s now) := by
  obtain ⟨hback, cut, hcut, hleaves, -⟩ := leaves_prune h.backed hprune
  refine ⟨hback, ?_, fun leaf hleaf => ?_, (Node.length_leaves ..).symm, fun c t hrecent => ?_⟩
  · rw [hleaves]
    exact h.distinct.sublist (filter_sublist.map _)
  · exact h.recent leaf (mem_filter.mp (hleaves ▸ hleaf)).1
  · by_cases hin : (c, t) ∈ (config.prune s now).data.leaves 0
    · exact .inl hin
    · rcases Int.lt_or_le (config.expiredTimeNs now) t with hfresh | hold
      · obtain ⟨hlength, hall⟩ := h.kept hprune hrecent hfresh hin
        rw [filter_eq_self.mpr fun leaf hleaf => decide_eq_true (hall leaf hleaf)]
        exact .inr (.inr hlength.ge)
      · exact .inr (.inl (decide_eq_true hold))

theorem Sound.pruned (h : Sound config s) (hprune : config.Prunable s now) :
    Pruned config (config.prune s now) (config.expiredTimeNs now) := by
  have hsound := h.prune hprune
  obtain ⟨-, cut, hcut, hleaves, hfew, -⟩ := leaves_prune h.backed hprune
  have hunexpired :
      ((config.prune s now).data.leaves 0).map Prod.fst ⊆ unexpired s.pushed (config.expiredTimeNs now) := by
    intro c hc
    obtain ⟨leaf, hleaf, rfl⟩ := mem_map.mp hc
    have hrecent := hsound.recent leaf hleaf
    rw [hleaves, mem_filter, decide_eq_true_eq] at hleaf
    exact mem_unexpired.mpr ⟨leaf.2, hrecent, hcut.trans_lt hleaf.2⟩
  have hdropped : ∀ d ∈ unexpired s.pushed (config.expiredTimeNs now),
      d ∉ ((config.prune s now).data.leaves 0).map Prod.fst → ∃ u, mostRecent s.pushed d = some u ∧
        ((config.prune s now).data.leaves 0).length = config.maxCardinality ∧
        ∀ leaf ∈ (config.prune s now).data.leaves 0, u ≤ leaf.2 := by
    intro d hd hnot
    obtain ⟨u, hrecent, hfresh⟩ := mem_unexpired.mp hd
    exact ⟨u, hrecent, h.kept hprune hrecent hfresh fun hin => hnot (mem_map_of_mem hin)⟩
  refine ⟨fun hall c => ⟨fun hc => hunexpired hc, fun hc => ?_⟩, fun hmany => ⟨?_, fun c hc => ⟨hunexpired hc, ?_⟩⟩,
    hsound.distinct, hsound.backed.leafy⟩
  · by_contra hnot
    obtain ⟨-, -, hlength, -⟩ := hdropped c hc hnot
    have hmore := (subperm_of_subset (nodup_cons.mpr ⟨hnot, hsound.distinct⟩)
      (cons_subset.mpr ⟨hc, hunexpired⟩)).length_le
    rw [length_cons, length_map, hlength] at hmore
    omega
  · by_contra hne
    have hnodup : (unexpired s.pushed (config.expiredTimeNs now)).Nodup := (nodup_dedup _).filter _
    have hsub : unexpired s.pushed (config.expiredTimeNs now) ⊆ ((config.prune s now).data.leaves 0).map Prod.fst := by
      intro d hd
      by_contra hnot
      obtain ⟨-, -, hlength, -⟩ := hdropped d hd hnot
      exact hne (by rw [length_map, hlength])
    have hle := (subperm_of_subset hnodup hsub).length_le
    rw [length_map] at hle
    exact absurd (hle.trans hfew) hmany.not_ge
  · intro d hd hnot t u ht hu
    obtain ⟨leaf, hleaf, rfl⟩ := mem_map.mp hc
    obtain ⟨u', hu', -, hall⟩ := hdropped d hd hnot
    rw [← some.inj ((hsound.recent leaf hleaf).symm.trans ht), ← some.inj (hu'.symm.trans hu)]
    exact hall leaf hleaf

private theorem sound_step {a : Action} {s' : State n} (h : Sound config s) (hguard : config.InOrder s a)
    (hstep : config.step s a = some s') : Sound config s' := by
  cases a with
  | push row =>
    cases hstep
    exact h.push hguard
  | prune now =>
    cases hstep
    exact h.prune hguard

/-- Along every run of in-order pushes and such prunings the count is that of the combinations, and every further
pruning of that kind leaves what is expected. -/
theorem distinctCache_pruned (config : Config n) (actions : List Action) (s : State n)
    (hguarded : Runs.Guarded config.step config.InOrder (State.new n) actions)
    (hrun : Runs.run config.step (State.new n) actions = some s) :
    s.cardinality = ((s.data.leaves 0).map Prod.fst).length ∧
    ∀ now, config.Prunable s now → Pruned config (config.prune s now) (config.expiredTimeNs now) := by
  have hsound := Runs.invariant sound_step (Sound.new config) hguarded hrun
  exact ⟨by rw [length_map, hsound.cardinality], fun now hprune => hsound.pruned hprune⟩

private def single : Config 0 := ⟨[0], rfl, 2, 10⟩

private def pair : Config 1 := ⟨[0, 1], rfl, 2, 10⟩

private def row (value : String) (time : Int) : Row := ⟨[(0, value), (1, value)], time⟩

private def history : List Action :=
  [.push (row "a" 1), .push (row "b" 2), .push (row "a" 3), .push (row "c" 4), .prune 5, .prune 14]

/-- The oldest of three values is dropped, and later another one expires. -/
theorem distinctCache_pruned_single :
    ∃ s, Runs.run single.step (State.new 0) history = some s ∧ s.cardinality = ((s.data.leaves 0).map Prod.fst).length ∧
      ∀ now, single.Prunable s now → Pruned single (single.prune s now) (single.expiredTimeNs now) :=
  ⟨_, rfl, distinctCache_pruned single history _ (by decide +kernel) rfl⟩

/-- Of two columns the branch of an expired row stays without leaves; three values of the same time are all dropped; and
a value is dropped that was seen out of order. -/
theorem distinctCache_not_pruned : ¬ Pruned pair (pair.prune (pair.push (State.new 1) (row "a" 1)) 11) 1 ∧
    ¬ Pruned single
      (single.prune (single.push (single.push (single.push (State.new 0) (row "a" 1)) (row "b" 1)) (row "c" 1)) 5)
      (-5) ∧
    ¬ Pruned single (single.prune (single.push (single.push (State.new 0) (row "a" 5)) (row "a" 1)) 12) 2 := by
  refine ⟨fun h => ?_, fun h => ?_, fun h => ?_⟩
  · exact (h.leafy _ mem_cons_self).1 rfl
  · exact absurd (h.newest (by decide +kernel)).1 (by decide +kernel)
  · exact absurd ((h.exact (by decide +kernel) [some "a"]).mpr (by decide +kernel)) (by decide +kernel)

end

end VarveDB.DistinctCache
