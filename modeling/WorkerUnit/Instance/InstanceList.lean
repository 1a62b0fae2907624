import WorkerUnit.Include.Text

/-!
# The list of instances

`instance/instance.hpp` and `.cpp`. The constructor stores its arguments in
members of eight bits.
-/

namespace WorkerUnit

structure Instance where
  instanceId : Text
  linkedAlgorithm : ℕ
  totalColumns : ℕ
  totalRows : ℕ
  deriving DecidableEq, Repr

namespace Instance

/-- The default constructor. -/
def empty : Instance := ⟨[], 0, 0, 0⟩

/-- The constructor with arguments. -/
def new (instanceId : Text) (linkedAlgorithm totalColumns totalRows : ℕ) : Instance :=
  ⟨instanceId, linkedAlgorithm % 256, totalColumns % 256, totalRows % 256⟩

end Instance

abbrev InstanceList := List Instance

namespace InstanceList

def addInstance (instanceList : InstanceList) (inst : Instance) : InstanceList :=
  instanceList ++ [inst]

/-- The first match, or the dummy object. -/
def getInstanceFromId (instanceList : InstanceList) (id : Text) : Instance :=
  (instanceList.find? fun inst => inst.instanceId == id).getD .empty

/-- An instance that was found keeps being found when others are added. -/
theorem getInstanceFromId_addInstance {instanceList : InstanceList} {id : Text}
    (h : getInstanceFromId instanceList id ≠ .empty) (inst : Instance) :
    getInstanceFromId (instanceList.addInstance inst) id = getInstanceFromId instanceList id := by
  unfold getInstanceFromId addInstance at *
  cases hfind : instanceList.find? fun inst => inst.instanceId == id with
  | none => simp [hfind] at h
  | some found => simp [List.find?_append, hfind]

end InstanceList

end WorkerUnit
