import DeferredArrays.Kernel.Code
import Mathlib.Algebra.Group.Nat.Defs

/-!
# Proofs/Kernel/Offsets — where the arguments of parameters are looked for

The offset of an argument is eight times the index of its parameter, as a signed word of 32 bits.
So offsets repeat from index `2 ^ 29` on, and those of the upper half of the indices before that are
negative (`Code.toInt_offset`): there, no argument is found (`Code.argument?_offset`).  Below index
`2 ^ 28` it is the argument of the parameter (`Code.argument?_offset_of_lt`).
-/

namespace DeferredArrays.Kernel.Code

/-- Offsets repeat from index `2 ^ 29` on, and the upper half of them are negative. -/
theorem toInt_offset (index : Nat) : (offset index).toInt =
    if index % 2 ^ 29 < 2 ^ 28 then ((index % 2 ^ 29 : Nat) : Int) * 8
    else ((index % 2 ^ 29 : Nat) : Int) * 8 - Int32.size := by
  rw [offset, Int32.toInt_ofNat', Int.bmod_def, Int32.size]
  split <;> split <;> omega

/-- Before that, each index has its own. -/
theorem offset_inj {i j : Nat} (hi : i < 2 ^ 29) (hj : j < 2 ^ 29) (h : offset i = offset j) :
    i = j := by
  have hoffset := congrArg Int32.toInt h
  rw [toInt_offset, toInt_offset, Int32.size] at hoffset
  split at hoffset <;> split at hoffset <;> omega

/-- As many parameters have offsets that differ. -/
theorem nodup_offsets {n : Nat} (hn : n ≤ 2 ^ 29) : ((List.range n).map offset).Nodup := by
  refine List.pairwise_map.mpr (List.nodup_range.imp_of_mem fun {i j} hi hj hij h => hij ?_)
  have hi := List.mem_range.mp hi
  have hj := List.mem_range.mp hj
  exact offset_inj (Nat.lt_of_lt_of_le hi hn) (Nat.lt_of_lt_of_le hj hn) h

/-- **What is found at the offset for a parameter**: those in the upper half of the range are before
the arguments. -/
theorem argument?_offset (args : List Float) (index : Nat) :
    argument? args (offset index) =
      if index % 2 ^ 29 < 2 ^ 28 then args[index % 2 ^ 29]? else none := by
  rw [argument?, toInt_offset, Int32.size]
  split
  · rw [if_pos (by omega)]
    congr 1
    omega
  · rw [if_neg (by omega)]

/-- Below index `2 ^ 28`, the argument of the parameter is found. -/
theorem argument?_offset_of_lt (args : List Float) {index : Nat} (h : index < 2 ^ 28) :
    argument? args (offset index) = args[index]? := by
  have hmod : index % 2 ^ 29 = index := Nat.mod_eq_of_lt (Nat.lt_trans h (by decide))
  rw [argument?_offset, hmod, if_pos h]

end DeferredArrays.Kernel.Code
