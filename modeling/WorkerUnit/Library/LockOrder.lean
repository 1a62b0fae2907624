import WorkerUnit.Library.Semaphore
import WorkerUnit.Library.StepSystem

/-!
# Locks taken in an order

Threads that work on shared data under locks, each lock a semaphore that starts at
one. What a thread does next may depend on the data as it finds them, so a program
is a tree. `Discipline` says what the programs keep to: locks are taken in the order
of their ranks, and what a thread has seen stays true while it holds the lock for it.
Then no lock has two holders, and a thread that has something to do can get to do it,
unless it has met data on which it fails: there it does something undefined, or takes
a lock that it holds.
-/

namespace LockOrder

open StepSystem

/-- What a thread has still to do. It looks at the data at any time, and changes them
where it takes a lock; the label says for what it waits. -/
inductive LockProgram (σ κ ℓ : Type*) where
  | done
  | undefined
  | look (next : σ → LockProgram σ κ ℓ)
  | wait (label : κ) (l : ℓ) (body : σ → σ) (next : σ → LockProgram σ κ ℓ)
  | post (l : ℓ) (next : LockProgram σ κ ℓ)

structure Locker (σ κ ℓ : Type*) where
  held : List ℓ
  todo : LockProgram σ κ ℓ

structure LockState (τ σ κ ℓ : Type*) where
  sem : ℓ → ℕ
  data : σ
  thread : τ → Locker σ κ ℓ

variable {τ σ κ ℓ : Type*}

def start (data : σ) (program : τ → LockProgram σ κ ℓ) : LockState τ σ κ ℓ :=
  ⟨fun _ => 1, data, fun t => ⟨[], program t⟩⟩

/-- For what a thread waits next. -/
def LockProgram.label : LockProgram σ κ ℓ → Option κ
  | wait label _ _ _ => some label
  | _ => none

/-- What is left of a program after its first operation. -/
inductive LockProgram.Follows : LockProgram σ κ ℓ → LockProgram σ κ ℓ → Prop
  | look (next : σ → LockProgram σ κ ℓ) (data : σ) : Follows (next data) (.look next)
  | wait (label : κ) (l : ℓ) (body : σ → σ) (next : σ → LockProgram σ κ ℓ) (data : σ) :
    Follows (next data) (.wait label l body next)
  | post (l : ℓ) (next : LockProgram σ κ ℓ) : Follows next (.post l next)

theorem LockProgram.wellFounded_follows :
    WellFounded (LockProgram.Follows (σ := σ) (κ := κ) (ℓ := ℓ)) := by
  refine ⟨fun p => ?_⟩
  induction p with
  | done => exact ⟨_, fun q hq => nomatch hq⟩
  | undefined => exact ⟨_, fun q hq => nomatch hq⟩
  | look next ih =>
    refine ⟨_, fun q hq => ?_⟩
    cases hq with
    | look _ data => exact ih data
  | wait label l body next ih =>
    refine ⟨_, fun q hq => ?_⟩
    cases hq with
    | wait _ _ _ _ data => exact ih data
  | post l next ih =>
    refine ⟨_, fun q hq => ?_⟩
    cases hq with
    | post => exact ih

/-- The thread never steps again. -/
def Dead (thread : Locker σ κ ℓ) : Prop :=
  thread.todo = .undefined ∨
    ∃ label l body next, thread.todo = .wait label l body next ∧ l ∈ thread.held

/-- The order of the locks, what is always true of the data, what the holder of a lock
may rely on while others change the data, and the data on which a thread fails. -/
structure Discipline (σ κ ℓ : Type*) where
  rank : ℓ → ℕ
  Invariant : σ → Prop
  Relies : ℓ → σ → σ → Prop
  Fails : κ → σ → Prop
  relies_refl : ∀ l data, Relies l data data
  relies_trans : ∀ l {a b c}, Relies l a b → Relies l b c → Relies l a c

namespace Discipline

variable (D : Discipline σ κ ℓ)

/-- What others may have done to the data meanwhile. -/
def Meanwhile (held : List ℓ) (data data' : σ) : Prop :=
  D.Invariant data' ∧ ∀ l ∈ held, D.Relies l data data'

/-- The thread is about to take a lock, on data on which it fails. -/
def Failing (s : LockState τ σ κ ℓ) (t : τ) : Prop :=
  ∃ label ∈ (s.thread t).todo.label, D.Fails label s.data

variable {D}

theorem Meanwhile.trans {held : List ℓ} {a b c : σ} (hab : D.Meanwhile held a b)
    (hbc : D.Meanwhile held b c) : D.Meanwhile held a c :=
  ⟨hbc.1, fun l hl => D.relies_trans l (hab.2 l hl) (hbc.2 l hl)⟩

theorem meanwhile_self {held : List ℓ} {data : σ} (h : D.Invariant data) :
    D.Meanwhile held data data :=
  ⟨h, fun l _ => D.relies_refl l data⟩

end Discipline

variable [DecidableEq ℓ]

namespace LockProgram

/-- The program run while no other thread runs. -/
def alone (held : List ℓ) (data : σ) : LockProgram σ κ ℓ → Except Semaphore.Stuck σ
  | done => .ok data
  | undefined => .error .undefined
  | look next => (next data).alone held data
  | wait _ l body next =>
    if l ∈ held then .error .blocked else (next data).alone (l :: held) (body data)
  | post l next => next.alone (held.erase l) data

end LockProgram

namespace Discipline

variable (D : Discipline σ κ ℓ)

/-- The program keeps to the discipline from these locks and data on. It fails only
on the first lock that it takes. -/
def Kept : List ℓ → σ → LockProgram σ κ ℓ → Prop
  | held, _, .done => held = []
  | _, _, .undefined => False
  | held, data, .look next =>
    ∀ data', D.Meanwhile held data data' → Kept held data' (next data')
  | held, data, .wait label l body next =>
    (∀ k ∈ held, D.rank k < D.rank l) ∧ ∀ data', D.Meanwhile held data data' →
      (D.Invariant (body data') ∧ ∀ k, k ∉ l :: held → D.Relies k data' (body data')) ∧
        (D.Fails label data' → held = [] ∧ Dead ⟨[l], next data'⟩) ∧
        (¬ D.Fails label data' → Kept (l :: held) (body data') (next data'))
  | held, data, .post l next => l ∈ held ∧ Kept (held.erase l) data next

variable {D}

theorem Meanwhile.erase {held : List ℓ} {a b : σ} (h : D.Meanwhile held a b) (l : ℓ) :
    D.Meanwhile (held.erase l) a b :=
  ⟨h.1, fun k hk => h.2 k (List.mem_of_mem_erase hk)⟩

/-- What others do in the meantime does not bring a thread off its discipline. -/
theorem Kept.meanwhile {held : List ℓ} {a b : σ} {p : LockProgram σ κ ℓ} (h : D.Kept held a p)
    (hab : D.Meanwhile held a b) : D.Kept held b p := by
  induction p generalizing held with
  | done => exact h
  | undefined => exact h
  | look next => exact fun c hbc => h c (hab.trans hbc)
  | wait label l body next => exact ⟨h.1, fun c hbc => h.2 c (hab.trans hbc)⟩
  | post l next ih => exact ⟨h.1, ih h.2 (hab.erase l)⟩

/-- A section in which no thread fails. -/
theorem kept_section {held : List ℓ} {data : σ} {label : κ} {l : ℓ} {body : σ → σ}
    {p : LockProgram σ κ ℓ} (hrank : ∀ k ∈ held, D.rank k < D.rank l)
    (hbody : ∀ data', D.Meanwhile held data data' →
      D.Invariant (body data') ∧ ∀ k, k ∉ l :: held → D.Relies k data' (body data'))
    (hfails : ∀ data', D.Meanwhile held data data' → ¬ D.Fails label data')
    (hp : ∀ data', D.Meanwhile held data data' → D.Kept held (body data') p) :
    D.Kept held data (.wait label l body fun _ => .post l p) := by
  refine ⟨hrank, fun data' hdata' => ⟨hbody data' hdata', ?_, fun _ => ?_⟩⟩
  · exact fun hfail => absurd hfail (hfails data' hdata')
  · refine ⟨List.mem_cons_self .., ?_⟩
    rw [List.erase_cons_head]
    exact hp data' hdata'

theorem Kept.not_dead {held : List ℓ} {data : σ} {p : LockProgram σ κ ℓ}
    (h : D.Kept held data p) : ¬ Dead ⟨held, p⟩ := by
  rintro (rfl | ⟨label, l, body, next, rfl, hl⟩)
  · exact h
  · exact (h.1 l hl).false

end Discipline

variable [DecidableEq τ]

/-- The next operation of a thread. -/
def step (s : LockState τ σ κ ℓ) (t : τ) : Option (LockState τ σ κ ℓ) :=
  match (s.thread t).todo with
  | .done | .undefined => none
  | .look next =>
    some { s with thread := Function.update s.thread t ⟨(s.thread t).held, next s.data⟩ }
  | .wait _ l body next =>
    if s.sem l = 0 then none
    else some ⟨Function.update s.sem l (s.sem l - 1), body s.data,
      Function.update s.thread t ⟨l :: (s.thread t).held, next s.data⟩⟩
  | .post l next =>
    some ⟨Function.update s.sem l (s.sem l + 1), s.data,
      Function.update s.thread t ⟨(s.thread t).held.erase l, next⟩⟩

variable {D : Discipline σ κ ℓ} {s s' : LockState τ σ κ ℓ} {t u : τ} {l : ℓ}

/-- Everything a step can do. -/
theorem step_cases (h : step s t = some s') :
    (∃ next, (s.thread t).todo = .look next ∧
      s' = { s with thread := Function.update s.thread t ⟨(s.thread t).held, next s.data⟩ }) ∨
    (∃ label l body next, (s.thread t).todo = .wait label l body next ∧ s.sem l ≠ 0 ∧
      s' = ⟨Function.update s.sem l (s.sem l - 1), body s.data,
        Function.update s.thread t ⟨l :: (s.thread t).held, next s.data⟩⟩) ∨
    ∃ l next, (s.thread t).todo = .post l next ∧
      s' = ⟨Function.update s.sem l (s.sem l + 1), s.data,
        Function.update s.thread t ⟨(s.thread t).held.erase l, next⟩⟩ := by
  unfold step at h
  cases htodo : (s.thread t).todo with
  | done => simp [htodo] at h
  | undefined => simp [htodo] at h
  | look next =>
    simp only [htodo] at h
    exact .inl ⟨next, rfl, (Option.some.inj h).symm⟩
  | wait label l body next =>
    simp only [htodo] at h
    split_ifs at h with hsem
    exact .inr (.inl ⟨label, l, body, next, rfl, hsem, (Option.some.inj h).symm⟩)
  | post l next =>
    simp only [htodo] at h
    exact .inr (.inr ⟨l, next, rfl, (Option.some.inj h).symm⟩)

/-- A step is a step of one thread. -/
theorem thread_of_ne (h : step s t = some s') (hu : u ≠ t) : s'.thread u = s.thread u := by
  rcases step_cases h with ⟨next, _, rfl⟩ | ⟨label, l, body, next, _, _, rfl⟩ |
    ⟨l, next, _, rfl⟩ <;>
    simp [hu]

theorem follows_of_step (h : step s t = some s') :
    LockProgram.Follows (s'.thread t).todo (s.thread t).todo := by
  rcases step_cases h with ⟨next, htodo, rfl⟩ | ⟨label, l, body, next, htodo, _, rfl⟩ |
    ⟨l, next, htodo, rfl⟩
  · simpa [htodo] using .look next s.data
  · simpa [htodo] using .wait label l body next s.data
  · simpa [htodo] using .post l next

/-- A semaphore is at zero exactly when one thread has its lock. -/
structure Exclusive (s : LockState τ σ κ ℓ) : Prop where
  nodup : ∀ t, (s.thread t).held.Nodup
  sem_le : ∀ l, s.sem l ≤ 1
  taken : ∀ l, s.sem l = 0 ↔ ∃ t, l ∈ (s.thread t).held
  exclusive : ∀ l t u, l ∈ (s.thread t).held → l ∈ (s.thread u).held → t = u

omit [DecidableEq τ] [DecidableEq ℓ] in
theorem exclusive_start {data : σ} {program : τ → LockProgram σ κ ℓ} :
    Exclusive (start data program) :=
  ⟨fun _ => .nil, fun _ => le_rfl, fun _ => by simp [start], fun _ _ _ ht => nomatch ht⟩

omit [DecidableEq ℓ] in
/-- A thread that keeps its locks. -/
theorem Exclusive.look (hs : Exclusive s) (todo : LockProgram σ κ ℓ) :
    Exclusive { s with thread := Function.update s.thread t ⟨(s.thread t).held, todo⟩ } := by
  have hheld : ∀ u, (Function.update s.thread t ⟨(s.thread t).held, todo⟩ u).held =
      (s.thread u).held := by
    intro u
    by_cases hu : u = t
    · simp [hu]
    · simp [hu]
  constructor
  · simpa only [hheld] using hs.nodup
  · exact hs.sem_le
  · simpa only [hheld] using hs.taken
  · simpa only [hheld] using hs.exclusive

omit [DecidableEq ℓ] in
theorem mem_held_acquire {k : ℓ} {todo : LockProgram σ κ ℓ} :
    k ∈ (Function.update s.thread t ⟨l :: (s.thread t).held, todo⟩ u).held ↔
      k ∈ (s.thread u).held ∨ (u = t ∧ k = l) := by
  by_cases hu : u = t
  · subst hu
    simp [or_comm]
  · simp [hu]

theorem mem_held_release {k : ℓ} {todo : LockProgram σ κ ℓ} (hnodup : (s.thread t).held.Nodup) :
    k ∈ (Function.update s.thread t ⟨(s.thread t).held.erase l, todo⟩ u).held ↔
      k ∈ (s.thread u).held ∧ ¬ (u = t ∧ k = l) := by
  by_cases hu : u = t
  · subst hu
    simp [hnodup.mem_erase_iff, and_comm]
  · simp [hu]

omit [DecidableEq τ] [DecidableEq ℓ] in
theorem Exclusive.not_held (hs : Exclusive s) (hsem : s.sem l ≠ 0) (u : τ) :
    l ∉ (s.thread u).held :=
  fun hu => hsem ((hs.taken l).mpr ⟨u, hu⟩)

theorem Exclusive.acquire (hs : Exclusive s) (hsem : s.sem l ≠ 0) (data : σ)
    (todo : LockProgram σ κ ℓ) :
    Exclusive ⟨Function.update s.sem l (s.sem l - 1), data,
      Function.update s.thread t ⟨l :: (s.thread t).held, todo⟩⟩ := by
  have hfree := hs.not_held hsem
  have hone : s.sem l = 1 := by
    have := hs.sem_le l
    omega
  constructor
  · intro u
    by_cases hu : u = t
    · subst hu
      simpa using ⟨hfree u, hs.nodup u⟩
    · simpa [hu] using hs.nodup u
  · intro k
    by_cases hk : k = l
    · simp [hk, hone]
    · simpa [hk] using hs.sem_le k
  · intro k
    simp only [mem_held_acquire]
    by_cases hk : k = l
    · subst hk
      simp [hone]
    · simpa [hk] using hs.taken k
  · intro k u v hu hv
    rw [mem_held_acquire] at hu hv
    rcases hu with hu | ⟨rfl, rfl⟩
    · rcases hv with hv | ⟨rfl, rfl⟩
      · exact hs.exclusive k u v hu hv
      · exact absurd hu (hfree u)
    · rcases hv with hv | ⟨rfl, _⟩
      · exact absurd hv (hfree v)
      · rfl

theorem Exclusive.release (hs : Exclusive s) (hl : l ∈ (s.thread t).held)
    (todo : LockProgram σ κ ℓ) :
    Exclusive { s with
      sem := Function.update s.sem l (s.sem l + 1)
      thread := Function.update s.thread t ⟨(s.thread t).held.erase l, todo⟩ } := by
  have hzero : s.sem l = 0 := (hs.taken l).mpr ⟨t, hl⟩
  have hmem : ∀ k u, k ∈ (Function.update s.thread t ⟨(s.thread t).held.erase l, todo⟩ u).held ↔
      k ∈ (s.thread u).held ∧ ¬ (u = t ∧ k = l) := fun _ _ => mem_held_release (hs.nodup t)
  constructor
  · intro u
    by_cases hu : u = t
    · subst hu
      simpa using (hs.nodup u).erase l
    · simpa [hu] using hs.nodup u
  · intro k
    by_cases hk : k = l
    · simp [hk, hzero]
    · simpa [hk] using hs.sem_le k
  · intro k
    simp only [hmem]
    by_cases hk : k = l
    · subst hk
      simp only [Function.update_self, Nat.add_one_ne_zero, and_true, false_iff, not_exists,
        not_and, not_not]
      intro u hu
      exact hs.exclusive k u t hu hl
    · simpa [hk] using hs.taken k
  · intro k u v hu hv
    rw [hmem] at hu hv
    exact hs.exclusive k u v hu.1 hv.1

omit [DecidableEq τ] [DecidableEq ℓ] in
/-- While a thread takes a free lock, another one finds what it relies on. -/
theorem Exclusive.meanwhile (hs : Exclusive s) (hsem : s.sem l ≠ 0) (hu : u ≠ t) {data : σ}
    (hdata : D.Invariant data)
    (hrelies : ∀ k, k ∉ l :: (s.thread t).held → D.Relies k s.data data) :
    D.Meanwhile (s.thread u).held s.data data := by
  refine ⟨hdata, fun k hk => hrelies k ?_⟩
  rw [List.mem_cons, not_or]
  refine ⟨?_, fun hkt => hu (hs.exclusive k u t hk hkt)⟩
  rintro rfl
  exact hs.not_held hsem u hk

/-- The thread keeps to the discipline, or is dead. -/
def Discipline.Fine (D : Discipline σ κ ℓ) (data : σ) (thread : Locker σ κ ℓ) : Prop :=
  D.Kept thread.held data thread.todo ∨ Dead thread

structure Safe (D : Discipline σ κ ℓ) (s : LockState τ σ κ ℓ) : Prop extends Exclusive s where
  data : D.Invariant s.data
  fine : ∀ t, D.Fine s.data (s.thread t)

/-- No thread is dead. -/
def Live (s : LockState τ σ κ ℓ) : Prop := ∀ t, ¬ Dead (s.thread t)

omit [DecidableEq τ] in
theorem Safe.kept_of_live (hs : Safe D s) (h : ¬ Dead (s.thread t)) :
    D.Kept (s.thread t).held s.data (s.thread t).todo :=
  (hs.fine t).resolve_right h

omit [DecidableEq τ] in
theorem safe_start {data : σ} {program : τ → LockProgram σ κ ℓ} (hdata : D.Invariant data)
    (h : ∀ t, D.Kept [] data (program t)) : Safe D (start data program) :=
  ⟨exclusive_start, hdata, fun t => .inl (h t)⟩

theorem Safe.step_of_dead (hs : Safe D s) (h : Dead (s.thread t)) : LockOrder.step s t = none := by
  rcases h with htodo | ⟨label, l, body, next, htodo, hl⟩
  · simp only [LockOrder.step, htodo]
  · have hsem : s.sem l = 0 := (hs.taken l).mpr ⟨t, hl⟩
    simp only [LockOrder.step, htodo, if_pos hsem]

/-- What a step keeps, and when it leaves its thread dead. -/
theorem Safe.step (hs : Safe D s) (h : LockOrder.step s t = some s') :
    Safe D s' ∧ (Dead (s'.thread t) ↔ D.Failing s t) := by
  have hlive : ¬ Dead (s.thread t) := by
    intro hdead
    rw [hs.step_of_dead hdead] at h
    cases h
  have hkept := hs.kept_of_live hlive
  rcases step_cases h with ⟨next, htodo, rfl⟩ | ⟨label, l, body, next, htodo, hsem, rfl⟩ |
    ⟨l, next, htodo, rfl⟩
  · rw [htodo] at hkept
    have hnext := hkept s.data (Discipline.meanwhile_self hs.data)
    refine ⟨⟨hs.look _, hs.data, ?_⟩, ?_⟩
    · exact (Function.forall_update_iff _ fun _ => D.Fine _).mpr ⟨.inl hnext, fun u _ => hs.fine u⟩
    · simp [Discipline.Failing, htodo, LockProgram.label, hnext.not_dead]
  · rw [htodo] at hkept
    obtain ⟨⟨hdata, hrelies⟩, hfails, hgoes⟩ :=
      hkept.2 s.data (Discipline.meanwhile_self hs.data)
    have hothers : ∀ u, u ≠ t → D.Fine (body s.data) (s.thread u) := fun u hu =>
      (hs.fine u).imp_left fun hk => hk.meanwhile (hs.meanwhile hsem hu hdata hrelies)
    by_cases hfail : D.Fails label s.data
    · obtain ⟨hnil, hdead⟩ := hfails hfail
      refine ⟨⟨hs.acquire hsem _ _, hdata, ?_⟩, ?_⟩
      · refine (Function.forall_update_iff _ fun _ => D.Fine _).mpr ⟨.inr ?_, hothers⟩
        rwa [hnil]
      · simpa [Discipline.Failing, htodo, LockProgram.label, hfail, hnil] using hdead
    · refine ⟨⟨hs.acquire hsem _ _, hdata, ?_⟩, ?_⟩
      · exact (Function.forall_update_iff _ fun _ => D.Fine _).mpr ⟨.inl (hgoes hfail), hothers⟩
      · simpa [Discipline.Failing, htodo, LockProgram.label, hfail] using (hgoes hfail).not_dead
  · rw [htodo] at hkept
    refine ⟨⟨hs.release hkept.1 _, hs.data, ?_⟩, ?_⟩
    · exact (Function.forall_update_iff _ fun _ => D.Fine _).mpr
        ⟨.inl hkept.2, fun u _ => hs.fine u⟩
    · simp [Discipline.Failing, htodo, LockProgram.label, hkept.2.not_dead]

/-- The threads stay live in a step that does not fail. -/
theorem Safe.live_iff (hs : Safe D s) (h : LockOrder.step s t = some s') :
    Live s' ↔ Live s ∧ ¬ D.Failing s t := by
  have ht : ¬ Dead (s.thread t) := by
    intro hdead
    rw [hs.step_of_dead hdead] at h
    cases h
  constructor
  · intro hlive
    refine ⟨fun u => ?_, fun hfail => hlive t ((hs.step h).2.mpr hfail)⟩
    by_cases hu : u = t
    · rwa [hu]
    · rw [← thread_of_ne h hu]
      exact hlive u
  · rintro ⟨hlive, hfail⟩ u
    by_cases hu : u = t
    · rw [hu, (hs.step h).2]
      exact hfail
    · rw [thread_of_ne h hu]
      exact hlive u

omit [DecidableEq τ] in
/-- Only the first lock that a thread takes makes it fail. -/
theorem Safe.not_failing (hs : Safe D s) (hlive : Live s) (hheld : (s.thread t).held ≠ []) :
    ¬ D.Failing s t := by
  rintro ⟨label, hlabel, hfail⟩
  have hkept := hs.kept_of_live (hlive t)
  cases htodo : (s.thread t).todo with
  | wait label' l body next =>
    rw [htodo] at hkept hlabel
    obtain rfl : label' = label := Option.some.inj hlabel
    exact hheld ((hkept.2 s.data (Discipline.meanwhile_self hs.data)).2.1 hfail).1
  | _ => simp [htodo, LockProgram.label] at hlabel

/-- The threads can go on until the lock is free, without a step of a thread that has
only locks of lower rank. -/
def Frees (D : Discipline σ κ ℓ) (s : LockState τ σ κ ℓ) (l : ℓ) : Prop :=
  ∃ ts s', exec step s ts = some s' ∧ Safe D s' ∧ Live s' ∧ s'.sem l ≠ 0 ∧
    ∀ v, (∀ k ∈ (s.thread v).held, D.rank k < D.rank l) → s'.thread v = s.thread v

theorem Frees.of_exec {ts : List τ} (hrun : exec step s ts = some s')
    (hothers : ∀ v, (∀ k ∈ (s.thread v).held, D.rank k < D.rank l) → s'.thread v = s.thread v)
    (h : Frees D s' l) : Frees D s l := by
  obtain ⟨ts', s'', hrun', hsafe, hlive, hsem, hsame⟩ := h
  refine ⟨ts ++ ts', s'', exec_trans hrun hrun', hsafe, hlive, hsem, fun v hv => ?_⟩
  have hthread := hothers v hv
  rw [hsame v (by rwa [hthread]), hthread]

/-- A step of a thread that has the lock. -/
theorem Frees.of_step (h : step s u = some s') (hu : l ∈ (s.thread u).held)
    (hfrees : Frees D s' l) : Frees D s l := by
  have hrun : exec step s [u] = some s' := exec_cons_eq_some.mpr ⟨s', h, rfl⟩
  refine hfrees.of_exec hrun fun v hv => thread_of_ne h ?_
  rintro rfl
  exact (hv l hu).false

/-- The holder of a lock gets to give it back, when the locks of higher rank can be
freed. The induction is on what the holder has to do. -/
theorem Safe.frees_of_held (hs : Safe D s) (hlive : Live s) (hu : l ∈ (s.thread u).held)
    (hhigher : ∀ k, D.rank l < D.rank k → ∀ s : LockState τ σ κ ℓ, Safe D s → Live s →
      Frees D s k) : Frees D s l := by
  induction htodo : (s.thread u).todo generalizing s with
  | done =>
    have hkept := hs.kept_of_live (hlive u)
    rw [htodo] at hkept
    rw [hkept] at hu
    cases hu
  | undefined => exact absurd (.inl htodo) (hlive u)
  | look next ih =>
    have hstep : LockOrder.step s u = some { s with
        thread := Function.update s.thread u ⟨(s.thread u).held, next s.data⟩ } := by
      simp only [LockOrder.step, htodo]
    have hlive' := (hs.live_iff hstep).mpr ⟨hlive, hs.not_failing hlive (List.ne_nil_of_mem hu)⟩
    exact .of_step hstep hu (ih s.data (hs.step hstep).1 hlive' (by simpa using hu) (by simp))
  | wait label k body next ih =>
    have hkept := hs.kept_of_live (hlive u)
    rw [htodo] at hkept
    obtain ⟨ts, s₁, hrun, hs₁, hlive₁, hsem, hsame⟩ := hhigher k (hkept.1 l hu) s hs hlive
    have hthread : s₁.thread u = s.thread u := hsame u hkept.1
    have hstep : LockOrder.step s₁ u = some ⟨Function.update s₁.sem k (s₁.sem k - 1), body s₁.data,
        Function.update s₁.thread u ⟨k :: (s.thread u).held, next s₁.data⟩⟩ := by
      simp only [LockOrder.step, hthread, htodo, if_neg hsem]
    have hu₁ : l ∈ (s₁.thread u).held := by rwa [hthread]
    have hlive₂ := (hs₁.live_iff hstep).mpr
      ⟨hlive₁, hs₁.not_failing hlive₁ (List.ne_nil_of_mem hu₁)⟩
    have hfrees := ih s₁.data (hs₁.step hstep).1 hlive₂ (by simp [hu]) (by simp)
    refine .of_exec hrun (fun v hv => hsame v fun m hm => ?_) (.of_step hstep hu₁ hfrees)
    exact (hv m hm).trans (hkept.1 l hu)
  | post m next ih =>
    have hstep : LockOrder.step s u = some ⟨Function.update s.sem m (s.sem m + 1), s.data,
        Function.update s.thread u ⟨(s.thread u).held.erase m, next⟩⟩ := by
      simp only [LockOrder.step, htodo]
    have hlive' := (hs.live_iff hstep).mpr ⟨hlive, hs.not_failing hlive (List.ne_nil_of_mem hu)⟩
    by_cases hm : m = l
    · subst hm
      refine .of_step hstep hu ⟨[], _, rfl, (hs.step hstep).1, hlive', ?_, fun v _ => rfl⟩
      simp
    · have hu' : l ∈ (s.thread u).held.erase m := (List.mem_erase_of_ne (Ne.symm hm)).mpr hu
      exact .of_step hstep hu (ih (hs.step hstep).1 hlive' (by simpa using hu') (by simp))

/-- Every lock can be freed. -/
theorem Safe.frees (hs : Safe D s) (hlive : Live s) {bound : ℕ} (hbound : ∀ l, D.rank l ≤ bound)
    (l : ℓ) : Frees D s l := by
  induction hgap : bound - D.rank l using Nat.strong_induction_on generalizing l s with
  | _ gap ih =>
    by_cases hl : s.sem l = 0
    · obtain ⟨u, hu⟩ := (hs.taken l).mp hl
      refine hs.frees_of_held hlive hu fun k hk s hs hlive => ?_
      have hle := hbound k
      exact ih (bound - D.rank k) (by omega) hs hlive k rfl
    · exact ⟨[], s, rfl, hs, hlive, hl, fun _ _ => rfl⟩

/-- The other threads can go on until the thread gets to do its next operation. -/
def CanStep (s : LockState τ σ κ ℓ) (t : τ) : Prop :=
  ∃ ts s', exec step s ts = some s' ∧ s'.thread t = s.thread t ∧ (step s' t).isSome

theorem Safe.canStep (hs : Safe D s) (hlive : Live s) {bound : ℕ}
    (hbound : ∀ l, D.rank l ≤ bound) (ht : (s.thread t).todo ≠ .done) : CanStep s t := by
  cases htodo : (s.thread t).todo with
  | done => exact absurd htodo ht
  | undefined => exact absurd (.inl htodo) (hlive t)
  | look next => exact ⟨[], s, rfl, rfl, by simp [LockOrder.step, htodo]⟩
  | wait label l body next =>
    have hkept := hs.kept_of_live (hlive t)
    rw [htodo] at hkept
    obtain ⟨ts, s', hrun, _, _, hsem, hsame⟩ := hs.frees hlive hbound l
    have hthread : s'.thread t = s.thread t := hsame t hkept.1
    exact ⟨ts, s', hrun, hthread, by simp [LockOrder.step, hthread, htodo, hsem]⟩
  | post l next => exact ⟨[], s, rfl, rfl, by simp [LockOrder.step, htodo]⟩

/-- A dead thread stays dead. -/
theorem Safe.dead_of_exec (hs : Safe D s) (hdead : Dead (s.thread t)) {ts : List τ}
    (hrun : exec LockOrder.step s ts = some s') : Safe D s' ∧ Dead (s'.thread t) := by
  refine exec_invariant (P := fun s => Safe D s ∧ Dead (s.thread t)) ?_ ⟨hs, hdead⟩ hrun
  rintro s₁ u s₂ ⟨hs₁, hdead₁⟩ hu
  refine ⟨(hs₁.step hu).1, ?_⟩
  by_cases htu : t = u
  · subst htu
    rw [hs₁.step_of_dead hdead₁] at hu
    cases hu
  · rwa [thread_of_ne hu htu]

theorem Safe.not_canStep (hs : Safe D s) (hdead : Dead (s.thread t)) : ¬ CanStep s t := by
  rintro ⟨ts, s', hrun, _, hstep⟩
  obtain ⟨hs', hdead'⟩ := hs.dead_of_exec hdead hrun
  rw [hs'.step_of_dead hdead'] at hstep
  cases hstep

omit [DecidableEq τ] [DecidableEq ℓ] in
theorem Dead.not_done (h : Dead (s.thread t)) : (s.thread t).todo ≠ .done := by
  rintro hdone
  rcases h with h | ⟨label, l, body, next, h, _⟩
  · rw [hdone] at h
    cases h
  · rw [hdone] at h
    cases h

/-- A finished thread takes no step. -/
theorem done_of_exec (hdone : (s.thread t).todo = .done)
    {ts : List τ} (hrun : exec step s ts = some s') : (s'.thread t).todo = .done := by
  refine exec_invariant (P := fun s => (s.thread t).todo = .done) ?_ hdone hrun
  intro s₁ u s₂ hdone₁ hu
  by_cases htu : t = u
  · subst htu
    simp [step, hdone₁] at hu
  · rwa [thread_of_ne hu htu]

section Runs

variable {data : σ} {program : τ → LockProgram σ κ ℓ} {ts : List τ}

theorem safe_of_exec (hdata : D.Invariant data) (h : ∀ t, D.Kept [] data (program t))
    (hrun : exec step (start data program) ts = some s) : Safe D s :=
  exec_invariant (fun _ _ _ hs ht => (hs.step ht).1) (safe_start hdata h) hrun

/-- The threads are live after a run exactly when none of them has failed in it. -/
theorem live_of_exec_iff (hdata : D.Invariant data) (h : ∀ t, D.Kept [] data (program t))
    (hrun : exec step (start data program) ts = some s) :
    Live s ↔ Guarded step (fun s t => ¬ D.Failing s t) (start data program) ts := by
  have hstart : Live (start data program) := fun t => (h t).not_dead
  have hlive := guarded_iff (P := Safe D) (fun _ _ _ hs ht => ⟨(hs.step ht).1, hs.live_iff ht⟩)
    (safe_start hdata h) hrun
  rw [hlive]
  exact and_iff_right hstart

/-- After a run, every thread with something to do can get to do it exactly when no
thread has failed in the run. -/
theorem canStep_iff (hdata : D.Invariant data) (h : ∀ t, D.Kept [] data (program t)) {bound : ℕ}
    (hbound : ∀ l, D.rank l ≤ bound) (hrun : exec step (start data program) ts = some s) :
    (∀ t, (s.thread t).todo ≠ .done → CanStep s t) ↔
      Guarded step (fun s t => ¬ D.Failing s t) (start data program) ts := by
  have hsafe := safe_of_exec hdata h hrun
  rw [← live_of_exec_iff hdata h hrun]
  constructor
  · exact fun hcan t hdead => hsafe.not_canStep hdead (hcan t hdead.not_done)
  · exact fun hlive t ht => hsafe.canStep hlive hbound ht

/-- When threads never fail, a thread can finish. The induction is on what it has to do. -/
theorem exists_done (hdata : D.Invariant data) (h : ∀ t, D.Kept [] data (program t)) {bound : ℕ}
    (hbound : ∀ l, D.rank l ≤ bound)
    (hlive : ∀ ts s, exec step (start data program) ts = some s → Live s)
    (hrun : exec step (start data program) ts = some s) (t : τ) :
    ∃ ts' s', exec step s ts' = some s' ∧ (s'.thread t).todo = .done := by
  induction htodo : (s.thread t).todo using LockProgram.wellFounded_follows.induction
    generalizing s ts with
  | _ p ih =>
    by_cases hdone : (s.thread t).todo = .done
    · exact ⟨[], s, rfl, hdone⟩
    · obtain ⟨ts₁, s₁, hrun₁, hthread, hstep⟩ :=
        (safe_of_exec hdata h hrun).canStep (hlive ts s hrun) hbound hdone
      obtain ⟨s₂, hstep⟩ := Option.isSome_iff_exists.mp hstep
      have hrun₂ : exec step s (ts₁ ++ [t]) = some s₂ := exec_snoc hrun₁ hstep
      have hfollows := follows_of_step hstep
      rw [hthread, htodo] at hfollows
      obtain ⟨ts', s', hrun', hdone'⟩ := ih _ hfollows (exec_trans hrun hrun₂) rfl
      exact ⟨ts₁ ++ [t] ++ ts', s', exec_trans hrun₂ hrun', hdone'⟩

/-- Threads that never fail can finish from every state that they reach. -/
theorem exists_completion [Fintype τ] (hdata : D.Invariant data)
    (h : ∀ t, D.Kept [] data (program t)) {bound : ℕ} (hbound : ∀ l, D.rank l ≤ bound)
    (hlive : ∀ ts s, exec step (start data program) ts = some s → Live s)
    (hrun : exec step (start data program) ts = some s) :
    ∃ ts' s', exec step s ts' = some s' ∧ ∀ t, (s'.thread t).todo = .done := by
  have hall : ∀ F : Finset τ, ∃ ts' s', exec step s ts' = some s' ∧
      ∀ t ∈ F, (s'.thread t).todo = .done := by
    intro F
    induction F using Finset.induction with
    | empty => exact ⟨[], s, rfl, by simp⟩
    | insert t F _ ih =>
      obtain ⟨ts₁, s₁, hrun₁, hdone₁⟩ := ih
      obtain ⟨ts₂, s₂, hrun₂, hdone₂⟩ :=
        exists_done hdata h hbound hlive (exec_trans hrun hrun₁) t
      refine ⟨ts₁ ++ ts₂, s₂, exec_trans hrun₁ hrun₂, ?_⟩
      rw [Finset.forall_mem_insert]
      exact ⟨hdone₂, fun u hu => done_of_exec (hdone₁ u hu) hrun₂⟩
  obtain ⟨ts', s', hrun', hdone⟩ := hall Finset.univ
  exact ⟨ts', s', hrun', fun t => hdone t (Finset.mem_univ t)⟩

/-- From every state that is reached the threads can finish exactly when none of them
fails in any run. -/
theorem canFinish_iff [Fintype τ] (hdata : D.Invariant data)
    (h : ∀ t, D.Kept [] data (program t)) {bound : ℕ} (hbound : ∀ l, D.rank l ≤ bound) :
    (∀ ts s, exec step (start data program) ts = some s →
      ∃ ts' s', exec step s ts' = some s' ∧ ∀ t, (s'.thread t).todo = .done) ↔
      ∀ ts s, exec step (start data program) ts = some s →
        Guarded step (fun s t => ¬ D.Failing s t) (start data program) ts := by
  constructor
  · intro hfinish ts s hrun
    rw [← live_of_exec_iff hdata h hrun]
    intro t hdead
    obtain ⟨ts', s', hrun', hdone⟩ := hfinish ts s hrun
    exact ((safe_of_exec hdata h hrun).dead_of_exec hdead hrun').2.not_done (hdone t)
  · intro hnever ts s hrun
    refine exists_completion hdata h hbound (fun ts s hrun => ?_) hrun
    exact (live_of_exec_iff hdata h hrun).mpr (hnever ts s hrun)

end Runs

end LockOrder
