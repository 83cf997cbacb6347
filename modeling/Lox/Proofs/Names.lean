import Mathlib.Data.List.Induction
import Mathlib.Data.List.Nodup

/-!
Names in the order in which they first occur. One more name goes to the end, unless it is there.
-/

namespace Lox

theorem eraseDups_concat (names : List String) (name : String) : (names ++ [name]).eraseDups =
    if name ∈ names then names.eraseDups else names.eraseDups ++ [name] := by
  rw [List.eraseDups_append]
  by_cases h : name ∈ names <;> simp [List.removeAll, List.eraseDups_cons, h]

theorem nodup_eraseDups (names : List String) : names.eraseDups.Nodup := by
  induction names using List.reverseRecOn with
  | nil => exact List.nodup_nil
  | append_singleton names name ih =>
    rw [eraseDups_concat]
    split
    · exact ih
    · next fresh => simpa using ih.concat (mt List.mem_eraseDups.mp fresh)

end Lox
