import Gkit.Lib.Channels
import Gkit.Lib.Tallies

/-!
# Wait groups

A counter that must not become negative.  Where it counts the threads that have
not yet called `Done`, it never does, and a wait ends only when they all have.
-/

namespace Gkit.Lib

structure WaitGroup where
  count : ℤ
  deriving DecidableEq, Repr

namespace WaitGroup

def add (wg : WaitGroup) (delta : ℤ) : Attempt WaitGroup :=
  if wg.count + delta < 0 then .panics "sync: negative WaitGroup counter"
  else .ready ⟨wg.count + delta⟩

def done (wg : WaitGroup) : Attempt WaitGroup := wg.add (-1)

/-- Whether `Wait` returns. -/
def isZero (wg : WaitGroup) : Bool := wg.count = 0

theorem add_cases (wg : WaitGroup) (delta : ℤ) :
    (0 ≤ wg.count + delta ∧ wg.add delta = .ready ⟨wg.count + delta⟩) ∨
      (wg.count + delta < 0 ∧ wg.add delta = .panics "sync: negative WaitGroup counter") := by
  unfold add
  by_cases hneg : wg.count + delta < 0
  · exact .inr ⟨hneg, if_pos hneg⟩
  · exact .inl ⟨le_of_not_gt hneg, if_neg hneg⟩

theorem done_cases (wg : WaitGroup) :
    (0 < wg.count ∧ wg.done = .ready ⟨wg.count - 1⟩) ∨
      (wg.count ≤ 0 ∧ wg.done = .panics "sync: negative WaitGroup counter") := by
  rcases wg.add_cases (-1) with ⟨hpos, hadd⟩ | ⟨hneg, hadd⟩
  · exact .inl ⟨by omega, hadd⟩
  · exact .inr ⟨by omega, hadd⟩

end WaitGroup

end Gkit.Lib
