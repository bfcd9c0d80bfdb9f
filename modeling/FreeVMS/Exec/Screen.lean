import FreeVMS.Early.Console
import FreeVMS.Exec.Clients

/-!
# What programs show

The lines that programs print, from `rtl$print` through the loop and `printf` to the display.
-/

namespace FreeVMS.Exec

open Alloc BTree Kernel Thread Run Early Layout

/-- The characters as `putc` gets them. -/
def bytes (console : List Nat) : List (BitVec 8) := console.map (BitVec.ofNat 8)

/-- The strings that the messages print. -/
def strings (ms : List Message) : List (List Nat) :=
  (ms.filter fun m => l4Label m.tag = syscallPrint).map Message.text

/-- A string that has room on a line of the display. -/
def Short (str : List Nat) : Prop := str.length < 80 ∧ ∀ c ∈ str, Plain (BitVec.ofNat 8 c)

theorem lines_short {ms : List Message} (h : ∀ str ∈ strings ms, Short str) :
    bytes (lines ms) = ((strings ms).map bytes).flatMap fun l => l ++ [10] := by
  rw [bytes, lines, List.map_flatMap, strings, List.map_map, List.flatMap_map]
  refine List.flatMap_congr fun m hm => ?_
  have hfit := (h m.text (List.mem_map_of_mem hm)).1
  have hall : (m.text ++ [10]).length ≤ outbufSize - 1 := by
    rw [List.length_append, List.length_singleton, outbufSize]
    omega
  rw [List.take_of_length_le hall, List.map_append]
  rfl

end FreeVMS.Exec
