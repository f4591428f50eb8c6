/-
Training.Lib.CStrings — strings in arrays of bytes.

An array is a function of the index. `cString size buf` is the string that
a reader finds in the first `size` bytes: what comes before the first 0.
`strncpy` fills `n` bytes, with zeros behind a shorter string, and leaves
the byte behind them alone; what is read from an array one byte larger
depends on that byte when the string has `n` bytes or more
(`cString_strncpy`).
-/
import Mathlib.Data.List.GetD
import Mathlib.Data.List.TakeWhile
import Mathlib.Tactic.Common

namespace Training.Lib

variable {dst : Nat → UInt8} {src : List UInt8} {n size : Nat}

def strncpy (dst : Nat → UInt8) (src : List UInt8) (n : Nat) : Nat → UInt8 :=
  fun i => if i < n then src.getD i 0 else dst i

def cString (size : Nat) (buf : Nat → UInt8) : List UInt8 :=
  ((List.range size).map buf).takeWhile (· ≠ 0)

/-- The bytes that are filled. -/
theorem map_strncpy (dst : Nat → UInt8) (src : List UInt8) (n : Nat) :
    (List.range n).map (strncpy dst src n) = src.take n ++ List.replicate (n - src.length) 0 := by
  refine List.ext_getElem (by simp; omega) fun i hi hi' => ?_
  have hlt : i < n := by simpa using hi
  simp only [List.getElem_map, List.getElem_range, strncpy, if_pos hlt]
  by_cases hsrc : i < src.length
  · rw [List.getD_eq_getElem _ _ hsrc, List.getElem_append_left (by simp; omega), List.getElem_take]
  · rw [List.getD_eq_default _ _ (Nat.le_of_not_lt hsrc), List.getElem_append_right (by simp; omega),
      List.getElem_replicate]

theorem cString_strncpy (hsrc : 0 ∉ src) :
    cString (n + 1) (strncpy dst src n) =
      if src.length < n ∨ dst n = 0 then src.take n else src.take n ++ [dst n] := by
  have htake : ∀ b ∈ src.take n, (b ≠ 0 : Bool) = true := by
    intro b hb
    refine decide_eq_true ?_
    rintro rfl
    exact hsrc (List.mem_of_mem_take hb)
  have hlast : strncpy dst src n n = dst n := if_neg (Nat.lt_irrefl n)
  unfold cString
  rw [List.range_succ, List.map_append, map_strncpy, List.map_singleton, hlast, List.append_assoc,
    List.takeWhile_append_of_pos htake]
  by_cases hlen : src.length < n
  · rw [if_pos (Or.inl hlen)]
    obtain ⟨m, hm⟩ : ∃ m, n - src.length = m + 1 := ⟨n - src.length - 1, by omega⟩
    simp [hm, List.replicate_succ]
  · rw [show n - src.length = 0 by omega]
    by_cases hdst : dst n = 0
    · simp [hdst]
    · simp [hdst, hlen]

end Training.Lib
