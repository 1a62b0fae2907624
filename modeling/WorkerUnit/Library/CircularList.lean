import WorkerUnit.Library.Loop

/-!
# Going through a circular list

An iterator is at a node or at the end, which lies behind the last node and in
front of the first one. A loop from the first node to the end keeps, replaces or
erases the node it is at; before it erases a node it steps back.
-/

namespace CircularList

open Loop

variable {α : Type*}

/-- The place in front of which there are `k` of `n` nodes; `none` is the end. -/
def placeAt (n k : ℕ) : Option ℕ := if k < n then some k else none

def next (n : ℕ) : Option ℕ → Option ℕ
  | none => placeAt n 0
  | some k => placeAt n (k + 1)

def prev (n : ℕ) : Option ℕ → Option ℕ
  | none => if 0 < n then some (n - 1) else none
  | some 0 => none
  | some (k + 1) => some k

/-- The nodes, the iterator, and the nodes it has been at. -/
structure Cursor (α : Type*) where
  nodes : List α
  place : Option ℕ
  visited : List α

namespace Cursor

/-- The iterator at the first node. -/
def first (nodes : List α) : Cursor α := ⟨nodes, next nodes.length none, []⟩

def advance (c : Cursor α) : Cursor α := { c with place := next c.nodes.length c.place }

def replace (c : Cursor α) (k : ℕ) (a : α) : Cursor α := { c with nodes := c.nodes.set k a }

/-- The iterator steps back, and the node it was at is erased. -/
def eraseBack (c : Cursor α) (k : ℕ) : Cursor α :=
  { c with nodes := c.nodes.eraseIdx k, place := prev c.nodes.length (some k) }

def visit (c : Cursor α) (a : α) : Cursor α := { c with visited := c.visited ++ [a] }

end Cursor

/-- One round of a loop that replaces or erases each node. -/
def visitRound (f : α → Option α) (c : Cursor α) : Option (Bool × Cursor α) :=
  match c.place with
  | none => some (true, c)
  | some k =>
    match c.nodes[k]? with
    | none => none
    | some a =>
      match f a with
      | none => some (false, (((c.visit a).eraseBack k).advance))
      | some b => some (false, (((c.visit a).replace k b).advance))

variable {f : α → Option α}

/-- Behind an erased node the iterator is at the next one. -/
theorem next_prev (n m k : ℕ) : next n (prev m (some k)) = placeAt n k := by
  cases k <;> rfl

theorem visitRound_end (nodes visited : List α) :
    visitRound f ⟨nodes, none, visited⟩ = some (true, ⟨nodes, none, visited⟩) := rfl

theorem visitRound_node {before rest visited : List α} {a : α} :
    visitRound f
        ⟨before ++ a :: rest, placeAt (before ++ a :: rest).length before.length, visited⟩ =
      match f a with
      | none => some (false,
          ⟨before ++ rest, placeAt (before ++ rest).length before.length, visited ++ [a]⟩)
      | some b => some (false, ⟨before ++ b :: rest,
          placeAt (before ++ b :: rest).length (before.length + 1), visited ++ [a]⟩) := by
  have hplace : placeAt (before ++ a :: rest).length before.length = some before.length := by
    simp [placeAt]
  rw [hplace]
  simp only [visitRound, List.getElem?_append_right le_rfl, Nat.sub_self, List.getElem?_cons_zero]
  cases f a with
  | none =>
    simp [Cursor.visit, Cursor.eraseBack, Cursor.advance, next_prev,
      List.eraseIdx_append_of_length_le]
  | some b =>
    simp [Cursor.visit, Cursor.replace, Cursor.advance, next, List.set_append_right]

/-- From a node on, the rest of the nodes is gone through. -/
theorem ends_from (before rest visited : List α) :
    Ends (visitRound f) id
      ⟨before ++ rest, placeAt (before ++ rest).length before.length, visited⟩
      ⟨before ++ rest.filterMap f, none, visited ++ rest⟩ := by
  induction rest generalizing before visited with
  | nil =>
    have hplace : placeAt (before ++ []).length before.length = none := by simp [placeAt]
    rw [hplace, List.filterMap_nil, List.append_nil visited]
    exact .of_stop (visitRound_end _ _) rfl
  | cons a rest ih =>
    have hround := @visitRound_node α f before rest visited a
    cases hf : f a with
    | none =>
      rw [hf] at hround
      have hrest := ih before (visited ++ [a])
      rw [List.append_assoc, List.singleton_append] at hrest
      rw [List.filterMap_cons_none hf]
      exact .of_continue hround rfl hrest
    | some b =>
      rw [hf] at hround
      have hrest := ih (before ++ [b]) (visited ++ [a])
      simp only [List.append_assoc, List.singleton_append, List.length_append, List.length_cons,
        List.length_nil, Nat.zero_add] at hrest
      rw [List.filterMap_cons_some hf]
      refine .of_continue hround rfl ?_
      simpa only [List.length_append, List.length_cons] using hrest

/-- The loop is at every node once, in order. -/
theorem ends_first (nodes : List α) :
    Ends (visitRound f) id (Cursor.first nodes) ⟨nodes.filterMap f, none, nodes⟩ :=
  ends_from [] nodes []

end CircularList
