import Mathlib.Tactic

/-!
# Stable priority queues

The items that wait are listed in the order of their arrival. The item to be
served next is the first of those with the largest priority. A queue that is kept
sorted by insertion serves the items in this order.
-/

namespace StableQueue

variable {α β : Type*} [LinearOrder β] (priority : α → β)

/-- The item goes before the first item of a smaller priority. -/
def enqueue (x : α) : List α → List α
  | [] => [x]
  | y :: ys => if priority y < priority x then x :: y :: ys else y :: enqueue x ys

def Sorted (queue : List α) : Prop := queue.Pairwise fun a b => priority b ≤ priority a

def IsLargest (items : List α) (x : α) : Prop := ∀ y ∈ items, priority y ≤ priority x

instance (items : List α) (x : α) : Decidable (IsLargest priority items x) :=
  inferInstanceAs (Decidable (∀ y ∈ items, _))

/-- The earliest arrival among the items of the largest priority. -/
def next? (arrivals : List α) : Option α := arrivals.find? fun x => IsLargest priority arrivals x

/-- The arrivals without the item that is served next. -/
def serve (arrivals : List α) : List α := arrivals.eraseP fun x => IsLargest priority arrivals x

/-- The queue holds the arrivals, sorted, with equal priorities in their order. -/
structure Holds (queue arrivals : List α) : Prop where
  sorted : Sorted priority queue
  alike : ∀ p, queue.filter (priority · = p) = arrivals.filter (priority · = p)

variable {priority} {queue arrivals : List α} {x : α}

theorem holds_nil : Holds priority ([] : List α) [] := ⟨.nil, fun _ => rfl⟩

theorem mem_enqueue {y : α} : y ∈ enqueue priority x queue ↔ y = x ∨ y ∈ queue := by
  induction queue with
  | nil => simp [enqueue]
  | cons z queue ih =>
    unfold enqueue
    split_ifs
    · exact List.mem_cons
    · rw [List.mem_cons, ih, List.mem_cons]
      tauto

theorem Sorted.enqueue (h : Sorted priority queue) (x : α) :
    Sorted priority (enqueue priority x queue) := by
  induction queue with
  | nil => exact List.pairwise_singleton _ _
  | cons y queue ih =>
    obtain ⟨hy, hqueue⟩ := List.pairwise_cons.mp h
    unfold StableQueue.enqueue
    split_ifs with hlt
    · refine List.pairwise_cons.mpr ⟨?_, h⟩
      intro z hz
      rcases List.mem_cons.mp hz with rfl | hz
      · exact hlt.le
      · exact (hy z hz).trans hlt.le
    · refine List.pairwise_cons.mpr ⟨?_, ih hqueue⟩
      intro z hz
      rcases mem_enqueue.mp hz with rfl | hz
      · exact not_lt.mp hlt
      · exact hy z hz

/-- Among the items of one priority the inserted one is the last. -/
theorem filter_enqueue (h : Sorted priority queue) (x : α) (p : β) :
    (enqueue priority x queue).filter (priority · = p) =
      (queue ++ [x]).filter (priority · = p) := by
  induction queue with
  | nil => rfl
  | cons y queue ih =>
    obtain ⟨hy, hqueue⟩ := List.pairwise_cons.mp h
    unfold enqueue
    split_ifs with hlt
    · by_cases hx : priority x = p
      · have hsmaller : (y :: queue).filter (priority · = p) = [] := by
          apply List.filter_eq_nil_iff.mpr
          intro z hz
          have hzy : priority z ≤ priority y := by
            rcases List.mem_cons.mp hz with rfl | hz
            · exact le_rfl
            · exact hy z hz
          simpa using ((hzy.trans_lt hlt).trans_eq hx).ne
        rw [List.filter_append, List.filter_cons_of_pos (by simpa using hx), hsmaller]
        simp [hx]
      · rw [List.filter_append, List.filter_cons_of_neg (by simpa using hx)]
        simp [hx]
    · rw [List.cons_append, List.filter_cons, List.filter_cons, ih hqueue]

/-- An insertion is an arrival. -/
theorem Holds.enqueue (h : Holds priority queue arrivals) (x : α) :
    Holds priority (enqueue priority x queue) (arrivals ++ [x]) where
  sorted := h.sorted.enqueue x
  alike p := by
    rw [filter_enqueue h.sorted, List.filter_append, List.filter_append, h.alike p]

/-- The queue and the arrivals are the same items. -/
theorem Holds.perm (h : Holds priority queue arrivals) : queue.Perm arrivals := by
  classical
  rw [List.perm_iff_count]
  intro x
  have hcount : ∀ l : List α, l.count x = (l.filter (priority · = priority x)).count x :=
    fun l => (List.count_filter (by simp)).symm
  rw [hcount queue, hcount arrivals, h.alike]

/-- The largest arrivals are those that have the priority of the front. -/
theorem Holds.isLargest_iff (h : Holds priority (x :: queue) arrivals) {y : α}
    (hy : y ∈ arrivals) : IsLargest priority arrivals y ↔ priority y = priority x := by
  have hfront : ∀ z ∈ arrivals, priority z ≤ priority x := by
    intro z hz
    rcases List.mem_cons.mp (h.perm.mem_iff.mpr hz) with rfl | hz
    · exact le_rfl
    · exact (List.pairwise_cons.mp h.sorted).1 z hz
  constructor
  · intro hlargest
    exact le_antisymm (hfront y hy) (hlargest x (h.perm.mem_iff.mp (List.mem_cons_self ..)))
  · intro hyx z hz
    exact (hfront z hz).trans_eq hyx.symm

/-- In the order of arrival no largest item stands in front of the front. -/
theorem Holds.arrivals_eq (h : Holds priority (x :: queue) arrivals) :
    ∃ earlier later, arrivals = earlier ++ x :: later ∧
      ∀ y ∈ earlier, ¬ IsLargest priority arrivals y := by
  have hfind : arrivals.find? (priority · = priority x) = some x := by
    rw [← List.head?_filter, ← h.alike, List.filter_cons_of_pos (by simp), List.head?_cons]
  obtain ⟨_, earlier, later, harrivals, hearlier⟩ := List.find?_eq_some_iff_append.mp hfind
  refine ⟨earlier, later, harrivals, fun y hy hlargest => ?_⟩
  have hmem : y ∈ arrivals := harrivals ▸ List.mem_append_left _ hy
  have hne := hearlier y hy
  rw [decide_eq_true ((h.isLargest_iff hmem).mp hlargest)] at hne
  cases hne

/-- The front of the queue is the item that is served next. -/
theorem Holds.front (h : Holds priority (x :: queue) arrivals) :
    next? priority arrivals = some x ∧ Holds priority queue (serve priority arrivals) := by
  obtain ⟨earlier, later, harrivals, hearlier⟩ := h.arrivals_eq
  have hx : IsLargest priority arrivals x :=
    (h.isLargest_iff (h.perm.mem_iff.mp (List.mem_cons_self ..))).mpr rfl
  have hserve : serve priority arrivals = earlier ++ later := by
    have hskip : ∀ y ∈ earlier, ¬ decide (IsLargest priority arrivals y) = true :=
      fun y hy => by simpa using hearlier y hy
    calc serve priority arrivals
        = (earlier ++ x :: later).eraseP fun y => IsLargest priority arrivals y :=
          congrArg (List.eraseP _) harrivals
      _ = earlier ++ (x :: later).eraseP fun y => IsLargest priority arrivals y :=
          List.eraseP_append_right _ hskip
      _ = earlier ++ later := by rw [List.eraseP_cons_of_pos (by simpa using hx)]
  refine ⟨?_, (List.pairwise_cons.mp h.sorted).2, fun p => ?_⟩
  · refine List.find?_eq_some_iff_append.mpr ⟨by simpa using hx, earlier, later, harrivals, ?_⟩
    exact fun y hy => by simpa using hearlier y hy
  · have halike := h.alike p
    rw [harrivals, List.filter_append, List.filter_cons, List.filter_cons] at halike
    rw [hserve, List.filter_append]
    by_cases hp : priority x = p
    · have hnone : earlier.filter (priority · = p) = [] := by
        apply List.filter_eq_nil_iff.mpr
        intro y hy hyp
        have hmem : y ∈ arrivals := harrivals ▸ List.mem_append_left _ hy
        exact hearlier y hy ((h.isLargest_iff hmem).mpr ((of_decide_eq_true hyp).trans hp.symm))
      simpa [hp, hnone] using halike
    · simpa [hp] using halike

/-- Nothing arrives or leaves but the item that is served. -/
theorem Holds.nil_iff (h : Holds priority queue arrivals) : queue = [] ↔ arrivals = [] := by
  rw [← List.length_eq_zero_iff, h.perm.length_eq, List.length_eq_zero_iff]

end StableQueue
