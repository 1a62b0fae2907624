import Mathlib.Algebra.BigOperators.Fin
import Mathlib.Tactic

/-!
# Rounds of balancing

What rebalancing does to the loads of the queues. In a round the last queue with two
jobs gives to the first one without, and it stops for good at a queue whose jobs may
not be moved.
-/

namespace WorkerUnit

/-- The unfinished jobs of a queue, and how many of them `popJob` may take. -/
@[ext] structure Load where
  jobs : ℕ
  stealable : ℕ
  deriving DecidableEq, Repr

namespace Load

/-- The jobs that no round moves. -/
def held (l : Load) : ℕ := l.jobs - l.stealable

/-- The jobs that a queue gives away in all rounds together: it keeps one. -/
def spare (l : Load) : ℕ := min l.stealable (l.jobs - 1)

/-- The jobs that a queue gives away in one round. -/
def lump (l : Load) : ℕ := min 2 l.spare

def less (l : Load) (m : ℕ) : Load := ⟨l.jobs - m, l.stealable - m⟩

def more (l : Load) (m : ℕ) : Load := ⟨l.jobs + m, l.stealable + m⟩

/-- So many jobs, as they are given away round by round. -/
def lumps : ℕ → List ℕ
  | 0 => []
  | 1 => [1]
  | g + 2 => 2 :: lumps g

variable {l : Load}

theorem spare_pos_iff : 0 < l.spare ↔ 2 ≤ l.jobs ∧ 0 < l.stealable := by
  unfold spare
  omega

theorem lumps_of_pos {g : ℕ} (h : 0 < g) : lumps g = min 2 g :: lumps (g - min 2 g) := by
  match g, h with
  | 1, _ => rfl
  | g + 2, _ => rw [Nat.min_eq_left (Nat.le_add_left 2 g), Nat.add_sub_cancel, lumps]

theorem sum_lumps (g : ℕ) : (lumps g).sum = g := by
  induction g using lumps.induct with
  | case1 => rfl
  | case2 => rfl
  | case3 g ih => rw [lumps, List.sum_cons, ih, Nat.add_comm]

end Load

variable {n : ℕ} {x y : Fin n → Load} {p t b : Fin n}

/-- So many jobs that may be moved go from one queue to another. -/
def transfer (x : Fin n → Load) (source target : Fin n) (m : ℕ) : Fin n → Load :=
  Function.update (Function.update x source ((x source).less m)) target ((x target).more m)

theorem transfer_zero (x : Fin n → Load) (source target : Fin n) :
    transfer x source target 0 = x := by
  rw [transfer, Load.less, Load.more, Nat.sub_zero, Nat.sub_zero, Nat.add_zero, Nat.add_zero,
    Function.update_eq_self, Function.update_eq_self]

/-- Two transfers between the same queues are one. -/
theorem transfer_add {source target : Fin n} (hne : source ≠ target) (a c : ℕ) :
    transfer (transfer x source target a) source target c = transfer x source target (a + c) := by
  funext i
  by_cases ht : i = target
  · subst ht
    simp only [transfer, Function.update_self, Load.more, Nat.add_assoc]
  · by_cases hs : i = source
    · subst hs
      simp only [transfer, Function.update_of_ne ht, Function.update_self, Load.less, Nat.sub_sub]
    · simp only [transfer, Function.update_of_ne ht, Function.update_of_ne hs]

/-- The number of queues without jobs. -/
def idle (x : Fin n → Load) : ℕ := (Finset.univ.filter fun i => (x i).jobs = 0).card

def idleBefore (x : Fin n → Load) (p : Fin n) : ℕ :=
  (Finset.univ.filter fun i => i < p ∧ (x i).jobs = 0).card

/-- What the queues from `p` on give away, the last queue first. -/
def lumpsFrom (x : Fin n → Load) (p : Fin n) : List ℕ :=
  ((List.finRange n).reverse.filter (p ≤ ·)).flatMap fun i => Load.lumps (x i).spare

/-- The lumps that go to queues before `p`. -/
def lumpsBefore (x : Fin n → Load) (p : Fin n) : List ℕ :=
  (lumpsFrom x p).take (idleBefore x p)

/-- The rounds until the queues from `p` on have nothing to give. A lump for one of
them is given away again, up to one job. -/
def roundsFrom (x : Fin n → Load) (p : Fin n) : ℕ :=
  (lumpsBefore x p).length + ((lumpsFrom x p).drop (idleBefore x p)).sum

/-- The last queue with two jobs that no round moves. -/
structure LastHeld (x : Fin n → Load) (p : Fin n) : Prop where
  held : 2 ≤ (x p).held
  last : ∀ i, p < i → (x i).held < 2

/-- Beside `p` a queue stays idle, and one before it has, or is given, jobs to spare. -/
def StarvesAt (x : Fin n → Load) (p : Fin n) : Prop :=
  roundsFrom x p < idle x ∧ (2 ∈ lumpsBefore x p ∨ ∃ i < p, 0 < (x i).spare)

/-- The rounds will end with a queue idle beside jobs that could be moved. -/
def Starves (x : Fin n → Load) : Prop := ∃ p, LastHeld x p ∧ StarvesAt x p

instance : Decidable (LastHeld x p) :=
  decidable_of_iff (2 ≤ (x p).held ∧ ∀ i, p < i → (x i).held < 2)
    ⟨fun h => ⟨h.1, h.2⟩, fun h => ⟨h.held, h.last⟩⟩

instance : Decidable (StarvesAt x p) := inferInstanceAs (Decidable (_ ∧ _))

instance : Decidable (Starves x) := inferInstanceAs (Decidable (∃ _, _ ∧ _))

/-- A queue is idle while another one has two jobs, and one of them may be moved. -/
def Starved (x : Fin n → Load) : Prop :=
  (∃ i, (x i).jobs = 0) ∧ ∃ i, 2 ≤ (x i).jobs ∧ 0 < (x i).stealable

/-- The last queue with two jobs. -/
structure LastBusy (x : Fin n → Load) (b : Fin n) : Prop where
  busy : 2 ≤ (x b).jobs
  last : ∀ i, b < i → (x i).jobs < 2

/-- A round in which the queue `b` gives to the queue `t`. -/
structure Round (t b : Fin n) (x y : Fin n → Load) : Prop extends LastBusy x b where
  empty : x t = ⟨0, 0⟩
  first : ∀ i < t, (x i).jobs ≠ 0
  stealable : 0 < (x b).stealable
  result : y = transfer x b t (x b).lump

/-- No round can follow. -/
def Settled (x : Fin n → Load) : Prop :=
  (∀ i, (x i).jobs ≠ 0) ∨ (∀ i, (x i).jobs < 2) ∨ ∃ b, LastBusy x b ∧ (x b).stealable = 0

/-- The queue that keeps two jobs comes first among the last ones with two. -/
theorem LastHeld.le_busy (hp : LastHeld x p) (hb : LastBusy x b) : p ≤ b := by
  by_contra hlt
  have hheld := hp.held
  have hjobs := hb.last p (not_le.mp hlt)
  unfold Load.held at hheld
  omega

theorem LastBusy.spare_eq_zero (hb : LastBusy x b) {i : Fin n} (hi : b < i) : (x i).spare = 0 := by
  have hjobs := hb.last i hi
  unfold Load.spare
  omega

/-- A busy queue whose jobs may not be moved keeps them all, and it is the last one that
keeps two. -/
theorem LastBusy.lastHeld_iff (hb : LastBusy x b) (hstuck : (x b).stealable = 0) :
    LastHeld x p ↔ p = b := by
  have hheld : 2 ≤ (x b).held := by
    rw [Load.held, hstuck, Nat.sub_zero]
    exact hb.busy
  constructor
  · intro hp
    apply (hp.le_busy hb).antisymm
    by_contra hlt
    exact absurd hheld (not_le.mpr (hp.last b (not_le.mp hlt)))
  · rintro rfl
    exact ⟨hheld, fun i hi => lt_of_le_of_lt (Nat.sub_le ..) (hb.last i hi)⟩

/-- From such a queue on nothing is given away. -/
theorem LastBusy.spare_eq_zero_of_le (hb : LastBusy x b) (hstuck : (x b).stealable = 0)
    {i : Fin n} (hi : b ≤ i) : (x i).spare = 0 := by
  rcases hi.eq_or_lt with rfl | hi
  · rw [Load.spare, hstuck, Nat.zero_min]
  · exact hb.spare_eq_zero hi

theorem LastBusy.starvesAt_iff (hb : LastBusy x b) (hstuck : (x b).stealable = 0) :
    StarvesAt x b ↔ 0 < idle x ∧ ∃ i < b, 0 < (x i).spare := by
  have hempty : lumpsFrom x b = [] := by
    rw [lumpsFrom, List.flatMap_eq_nil_iff]
    intro i hi
    rw [hb.spare_eq_zero_of_le hstuck (by simpa using (List.mem_filter.mp hi).2), Load.lumps]
  simp [StarvesAt, roundsFrom, lumpsBefore, hempty]

theorem idle_pos_iff : 0 < idle x ↔ ∃ i, (x i).jobs = 0 := by
  rw [idle, Finset.card_pos]
  simp [Finset.Nonempty]

/-- Where no round can follow, queues starve as it was foreseen. -/
theorem Settled.starved_iff (h : Settled x) : Starved x ↔ Starves x := by
  rcases h with hidle | hbusy | ⟨b, hb, hstuck⟩
  · constructor
    · rintro ⟨⟨i, hi⟩, _⟩
      exact absurd hi (hidle i)
    · rintro ⟨p, _, hrounds, _⟩
      obtain ⟨i, hi⟩ := idle_pos_iff.mp (lt_of_le_of_lt (Nat.zero_le _) hrounds)
      exact absurd hi (hidle i)
  · constructor
    · rintro ⟨_, i, hi, _⟩
      exact absurd hi (not_le.mpr (hbusy i))
    · rintro ⟨p, hp, _⟩
      exact absurd (hp.held.trans (Nat.sub_le ..)) (not_le.mpr (hbusy p))
  · have hbefore : (∃ i < b, 0 < (x i).spare) ↔ ∃ i, 2 ≤ (x i).jobs ∧ 0 < (x i).stealable := by
      constructor
      · rintro ⟨i, _, hpos⟩
        exact ⟨i, Load.spare_pos_iff.mp hpos⟩
      · rintro ⟨i, hi⟩
        have hpos := Load.spare_pos_iff.mpr hi
        have hib : i < b := by
          by_contra hle
          rw [hb.spare_eq_zero_of_le hstuck (not_lt.mp hle)] at hpos
          exact lt_irrefl 0 hpos
        exact ⟨i, hib, hpos⟩
    simp only [Starves, hb.lastHeld_iff hstuck, exists_eq_left, hb.starvesAt_iff hstuck,
      idle_pos_iff, hbefore, Starved]

namespace Round

variable (h : Round t b x y)

include h

theorem idle : (x t).jobs = 0 := by rw [h.empty]

theorem ne : b ≠ t := by
  rintro rfl
  have hbusy := h.busy
  rw [h.idle] at hbusy
  omega

theorem not_settled : ¬ Settled x := by
  rintro (hidle | hbusy | ⟨c, hc, hstuck⟩)
  · exact hidle t h.idle
  · exact absurd h.busy (not_le.mpr (hbusy b))
  · have hcb : c = b := by
      rcases lt_trichotomy c b with hlt | rfl | hlt
      · exact absurd h.busy (not_le.mpr (hc.last b hlt))
      · rfl
      · exact absurd hc.busy (not_le.mpr (h.last c hlt))
    have hsteal := h.stealable
    rw [← hcb, hstuck] at hsteal
    exact lt_irrefl 0 hsteal

theorem spare_pos : 0 < (x b).spare := Load.spare_pos_iff.mpr ⟨h.busy, h.stealable⟩

theorem at_target : y t = ⟨(x b).lump, (x b).lump⟩ := by
  rw [h.result, transfer, Function.update_self, h.empty, Load.more, Nat.zero_add]

theorem at_source : y b = (x b).less (x b).lump := by
  rw [h.result, transfer, Function.update_of_ne h.ne, Function.update_self]

theorem at_other {i : Fin n} (ht : i ≠ t) (hb : i ≠ b) : y i = x i := by
  rw [h.result, transfer, Function.update_of_ne ht, Function.update_of_ne hb]

theorem held_eq (i : Fin n) : (y i).held = (x i).held := by
  by_cases ht : i = t
  · subst ht
    rw [h.at_target, Load.held, Load.held, h.idle, Nat.sub_self, Nat.zero_sub]
  · by_cases hb : i = b
    · subst hb
      rw [h.at_source]
      simp only [Load.held, Load.less, Load.lump, Load.spare]
      omega
    · rw [h.at_other ht hb]

/-- The source has fewer jobs to spare, and the target has all it was given but one. -/
theorem spare_eq (i : Fin n) : (y i).spare + (if i = b then (x b).lump else 0) =
    (x i).spare + if i = t then (x b).lump - 1 else 0 := by
  have hpos := h.spare_pos
  by_cases ht : i = t
  · subst ht
    rw [if_neg h.ne.symm, if_pos rfl, h.at_target]
    simp only [Load.spare, h.idle]
    omega
  · by_cases hb : i = b
    · subst hb
      rw [if_pos rfl, if_neg ht, h.at_source]
      simp only [Load.less, Load.lump, Load.spare]
      omega
    · rw [if_neg hb, if_neg ht, h.at_other ht hb]

theorem idle_iff (i : Fin n) : (y i).jobs = 0 ↔ (x i).jobs = 0 ∧ i ≠ t := by
  have hpos := h.spare_pos
  by_cases ht : i = t
  · subst ht
    rw [h.at_target]
    simp only [Load.lump, ne_eq, not_true_eq_false, and_false, iff_false]
    omega
  · by_cases hb : i = b
    · subst hb
      rw [h.at_source]
      simp only [Load.less, Load.lump, Load.spare] at hpos ⊢
      omega
    · rw [h.at_other ht hb]
      exact (and_iff_left ht).symm

theorem idle_eq : WorkerUnit.idle x = WorkerUnit.idle y + 1 := by
  have herase : (Finset.univ.filter fun i => (y i).jobs = 0) =
      (Finset.univ.filter fun i => (x i).jobs = 0).erase t := by
    ext i
    simp [h.idle_iff, and_comm]
  rw [WorkerUnit.idle, WorkerUnit.idle, herase,
    Finset.card_erase_add_one (by simpa using h.idle)]

theorem idleBefore_eq (ht : t < p) : idleBefore x p = idleBefore y p + 1 := by
  have herase : (Finset.univ.filter fun i => i < p ∧ (y i).jobs = 0) =
      (Finset.univ.filter fun i => i < p ∧ (x i).jobs = 0).erase t := by
    ext i
    simp only [h.idle_iff, Finset.mem_filter, Finset.mem_univ, true_and, Finset.mem_erase]
    tauto
  rw [idleBefore, idleBefore, herase, Finset.card_erase_add_one (by simp [ht, h.idle])]

/-- Behind `p` there is a first idle queue only if there is none before it. -/
theorem idleBefore_eq_zero (ht : p < t) : idleBefore x p = 0 ∧ idleBefore y p = 0 := by
  have hfirst : ∀ i, i < p → (x i).jobs ≠ 0 := fun i hi => h.first i (hi.trans ht)
  constructor
  · rw [idleBefore, Finset.card_eq_zero, Finset.filter_eq_empty_iff]
    rintro i - ⟨hi, hidle⟩
    exact hfirst i hi hidle
  · rw [idleBefore, Finset.card_eq_zero, Finset.filter_eq_empty_iff]
    rintro i - ⟨hi, hidle⟩
    exact hfirst i hi ((h.idle_iff i).mp hidle).1

/-- Given to a queue before `p`, the first lump is gone. -/
theorem lumpsFrom_eq (hb : p ≤ b) (ht : t < p) :
    lumpsFrom x p = (x b).lump :: lumpsFrom y p := by
  have hsorted : ((List.finRange n).reverse.filter (p ≤ ·)).Pairwise (· > ·) :=
    (List.pairwise_reverse.mpr (List.pairwise_lt_finRange n)).filter _
  have hmem : ∀ i, i ∈ (List.finRange n).reverse.filter (p ≤ ·) ↔ p ≤ i := by simp
  unfold lumpsFrom
  generalize (List.finRange n).reverse.filter (p ≤ ·) = is at hsorted hmem
  obtain ⟨later, earlier, rfl⟩ := List.append_of_mem ((hmem b).mpr hb)
  obtain ⟨_, hearlier, hlater⟩ := List.pairwise_append.mp hsorted
  have hsame : ∀ i, p ≤ i → i ≠ b → (y i).spare = (x i).spare := by
    intro i hi hib
    have heq := h.spare_eq i
    rwa [if_neg hib, if_neg (ht.trans_le hi).ne'] at heq
  have hnone : ∀ i ∈ later, (x i).spare = 0 := fun i hi =>
    h.spare_eq_zero (hlater i hi b (List.mem_cons_self ..))
  have hbefore : ∀ i ∈ later, Load.lumps (x i).spare = [] ∧ Load.lumps (y i).spare = [] := by
    intro i hi
    have hib : i ≠ b := (hlater i hi b (List.mem_cons_self ..)).ne'
    rw [hsame i ((hmem i).mp (List.mem_append_left _ hi)) hib, hnone i hi]
    exact ⟨rfl, rfl⟩
  have hafter : ∀ i ∈ earlier, Load.lumps (y i).spare = Load.lumps (x i).spare := by
    intro i hi
    have hib : i ≠ b := ((List.pairwise_cons.mp hearlier).1 i hi).ne
    rw [hsame i ((hmem i).mp (by simp [hi])) hib]
  have hsource : (y b).spare = (x b).spare - min 2 (x b).spare := by
    have heq := h.spare_eq b
    rw [if_pos rfl, if_neg h.ne, Load.lump] at heq
    omega
  rw [List.flatMap_append, List.flatMap_append, List.flatMap_cons, List.flatMap_cons,
    List.flatMap_eq_nil_iff.mpr fun i hi => (hbefore i hi).1,
    List.flatMap_eq_nil_iff.mpr fun i hi => (hbefore i hi).2, List.flatMap_congr hafter, hsource,
    Load.lumps_of_pos h.spare_pos]
  rfl

/-- Given to a queue behind `p`, a lump loses one job. -/
theorem sum_lumpsFrom (hb : p ≤ b) (ht : p < t) :
    (lumpsFrom x p).sum = (lumpsFrom y p).sum + 1 := by
  have hsum : ∀ z : Fin n → Load, (lumpsFrom z p).sum =
      ∑ i ∈ Finset.univ.filter (p ≤ ·), (z i).spare := by
    intro z
    have hmem : ((List.finRange n).reverse.filter (p ≤ ·)).toFinset =
        Finset.univ.filter (p ≤ ·) := by
      ext i
      simp
    have hnodup : ((List.finRange n).reverse.filter (p ≤ ·)).Nodup :=
      (List.nodup_reverse.mpr (List.nodup_finRange n)).filter _
    rw [lumpsFrom, List.flatMap_def, List.sum_flatten, List.map_map, ← hmem,
      List.sum_toFinset _ hnodup]
    simp only [Function.comp_def, Load.sum_lumps]
  have hmoved := Finset.sum_congr (rfl : Finset.univ.filter (p ≤ ·) = Finset.univ.filter (p ≤ ·))
    fun i _ => h.spare_eq i
  rw [Finset.sum_add_distrib, Finset.sum_add_distrib, Finset.sum_ite_eq', Finset.sum_ite_eq',
    if_pos (by simp [hb]), if_pos (by simp [ht.le]), ← hsum, ← hsum] at hmoved
  have hpos := h.spare_pos
  have hlump : 0 < (x b).lump := by
    unfold Load.lump
    omega
  omega

/-- A queue before `p` that is given two jobs has one to spare. -/
theorem spare_before (hb : p ≤ b) (ht : t < p) :
    (∃ i < p, 0 < (y i).spare) ↔ 2 = (x b).lump ∨ ∃ i < p, 0 < (x i).spare := by
  have hspare : ∀ i < p, (y i).spare = (x i).spare + if i = t then (x b).lump - 1 else 0 := by
    intro i hi
    have heq := h.spare_eq i
    rwa [if_neg (hi.trans_le hb).ne, Nat.add_zero] at heq
  have hlump : (x b).lump ≤ 2 := Nat.min_le_left ..
  constructor
  · rintro ⟨i, hi, hpos⟩
    rw [hspare i hi] at hpos
    split_ifs at hpos
    · by_cases hx : 0 < (x i).spare
      · exact .inr ⟨i, hi, hx⟩
      · exact .inl (by omega)
    · exact .inr ⟨i, hi, hpos⟩
  · rintro (htwo | ⟨i, hi, hpos⟩)
    · refine ⟨t, ht, ?_⟩
      rw [hspare t ht, if_pos rfl]
      omega
    · refine ⟨i, hi, ?_⟩
      rw [hspare i hi]
      omega

/-- Foreseen at `p`, the end of the rounds does not change. -/
theorem starvesAt_iff (hp : LastHeld x p) : StarvesAt x p ↔ StarvesAt y p := by
  have hb := hp.le_busy h.toLastBusy
  have hidle := h.idle_eq
  have hne : t ≠ p := by
    rintro rfl
    have hheld := hp.held
    rw [Load.held, h.idle] at hheld
    omega
  rcases hne.lt_or_gt with ht | ht
  · have hlumps := h.lumpsFrom_eq hb ht
    have hbefore := h.idleBefore_eq ht
    have hgive := h.spare_before hb ht
    simp only [StarvesAt, roundsFrom, lumpsBefore, hlumps, hbefore, hidle, hgive,
      List.take_succ_cons, List.drop_succ_cons, List.length_cons, List.mem_cons]
    rw [Nat.add_right_comm, Nat.add_lt_add_iff_right, or_assoc, or_left_comm]
  · obtain ⟨hx, hy⟩ := h.idleBefore_eq_zero ht
    have hsum := h.sum_lumpsFrom hb ht
    have hspare : ∀ i < p, (y i).spare = (x i).spare := by
      intro i hi
      have heq := h.spare_eq i
      rwa [if_neg (hi.trans_le hb).ne, if_neg (hi.trans ht).ne] at heq
    have hgive : (∃ i < p, 0 < (y i).spare) ↔ ∃ i < p, 0 < (x i).spare :=
      exists_congr fun i => and_congr_right fun hi => by rw [hspare i hi]
    simp only [StarvesAt, roundsFrom, lumpsBefore, hx, hy, List.take_zero, List.drop_zero,
      List.length_nil, Nat.zero_add, List.not_mem_nil, false_or, hgive, hsum, hidle,
      Nat.add_lt_add_iff_right]

theorem lastHeld_iff (p : Fin n) : LastHeld x p ↔ LastHeld y p := by
  constructor
  · intro hp
    exact ⟨by rw [h.held_eq]; exact hp.held, fun i hi => by rw [h.held_eq]; exact hp.last i hi⟩
  · intro hp
    exact ⟨by rw [← h.held_eq]; exact hp.held, fun i hi => by rw [← h.held_eq]; exact hp.last i hi⟩

/-- No round changes how the rounds will end. -/
theorem starves_iff : Starves x ↔ Starves y := by
  apply exists_congr
  intro p
  rw [← h.lastHeld_iff p]
  exact and_congr_right fun hp => h.starvesAt_iff hp

end Round

end WorkerUnit
