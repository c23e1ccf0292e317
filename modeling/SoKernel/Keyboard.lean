import SoKernel.Words

/-!
The keyboard driver of `keyboard.c`: scan codes come in by interrupt and build
up one line, which `SYS_READ` takes away when Enter has completed it.
-/
namespace SoKernel.Keyboard
open SoKernel.Words
set_option linter.unusedSimpArgs false

abbrev KB_LINE_MAX : Nat := 128

/-- The table of scan codes (set 1); the entries after the space are 0. -/
def scancode_to_ascii (scan_code : Byte) : Byte :=
  ([0#8,27#8,49#8,50#8,51#8,52#8,53#8,54#8,
    55#8,56#8,57#8,48#8,45#8,61#8,8#8,9#8,
    113#8,119#8,101#8,114#8,116#8,121#8,117#8,105#8,
    111#8,112#8,91#8,93#8,10#8,0#8,97#8,115#8,
    100#8,102#8,103#8,104#8,106#8,107#8,108#8,59#8,
    39#8,96#8,0#8,92#8,122#8,120#8,99#8,118#8,
    98#8,110#8,109#8,44#8,46#8,47#8,0#8,42#8,
    0#8,32#8][scan_code.toNat]?).getD 0#8

/-- The line so far. The buffer is the array `kb_line_buf`. -/
structure Line where
  kb_line_buf : Nat → Byte
  kb_line_len : Nat
  kb_line_complete : Bool

def empty : Line := { kb_line_buf := fun _ => 0#8, kb_line_len := 0, kb_line_complete := false }

/-- The line after a keyboard interrupt, and what is echoed to the console. -/
def keyboard_handler (kb : Line) (scan_code : Byte) : Line × List Byte :=
  if scan_code &&& 0x80#8 ≠ 0#8 then (kb,[])
  else
    let c := scancode_to_ascii scan_code
    if c = 0#8 then (kb,[])
    else if kb.kb_line_complete then (kb,[])
    else if c = 10#8 then ({ kb with kb_line_complete := true },[10#8])
    else if c = 8#8 then
      if 0 < kb.kb_line_len then ({ kb with kb_line_len := kb.kb_line_len-1 },[8#8]) else (kb,[])
    else if kb.kb_line_len < KB_LINE_MAX-1 then
      ({ kb with
          kb_line_buf := Function.update kb.kb_line_buf kb.kb_line_len c
          kb_line_len := kb.kb_line_len+1 },[c])
    else (kb,[])

def keyboard_has_line (kb : Line) : Bool := kb.kb_line_complete

/-- The bytes that go to the reader's buffer, whose number is the result, and
    the emptied line. -/
def keyboard_read_line (kb : Line) (max : Word) : List Byte × Line :=
  let len := if max.toNat < kb.kb_line_len then max.toNat else kb.kb_line_len
  ((List.range len).map kb.kb_line_buf,{ kb with kb_line_len := 0, kb_line_complete := false })

end SoKernel.Keyboard
