import RML.Spec.Types
import Mathlib.Data.List.Basic

/-! `mm/mm.c`: the allocator of 64K segments. -/

namespace RML

abbrev SegArr := ℕ → MemSeg

def initSeg : SegArr := fun i =>
  if i < 2 then ⟨1, 0x1000 * i⟩ else if i < NUM_SEG then ⟨0, 0x1000 * i⟩ else {}

/-- `get_free_seg`. With no free entry the local `seg` is returned as it was
found on the stack, which is the argument `seg` here. -/
def getFreeSeg (segArr : SegArr) (seg : ℕ) : ℕ × SegArr :=
  match (List.range NUM_SEG).find? fun i => (segArr i).used = 0 with
  | some i => ((segArr i).address, Function.update segArr i { segArr i with used := 1 })
  | none => (seg, segArr)

def releaseSeg (segArr : SegArr) (seg : ℕ) : SegArr :=
  match (List.range NUM_SEG).find? fun i => (segArr i).address = seg with
  | some i => Function.update segArr i { segArr i with used := 0 }
  | none => segArr

end RML
