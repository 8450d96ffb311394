/-! # Constants

The names that are bound from the start and that no statement may assign to.
-/

namespace Reckon

def constants : List (String × Float) :=
  [("pi", .ofBits 0x400921FB54442D18), ("PI", .ofBits 0x400921FB54442D18),
    ("e", .ofBits 0x4005BF0A8B145769), ("E", .ofBits 0x4005BF0A8B145769)]

def isConstant (name : String) : Bool :=
  constants.any fun (constant, _) => constant = name

theorem isConstant_iff (name : String) :
    isConstant name = true ↔ name ∈ ["pi", "PI", "e", "E"] := by
  simp only [isConstant, constants, List.any_cons, List.any_nil, Bool.or_false, Bool.or_eq_true,
    decide_eq_true_eq, List.mem_cons, List.not_mem_nil, or_false, @eq_comm _ name]

end Reckon
