import KuroOS.Task.ExecFile

/-!
# Where the loader reads

`elf_load` reads the file through addresses that the file determines. Here it is
run with a read that stops at an address outside the file: it never does when the
program headers and the file ranges of the segments are inside the file.
-/

namespace KuroOS

open Base

section

variable [Layout] (read : ByteRead)

/-! ### `elf_load` with a read of choice -/

end

/-! ### The read of the source makes the loader of the source -/

section

variable [Layout]

end

/-! ### Reads of a file whose ranges are inside -/

section

variable [Layout]

variable {own own' : Nat → Owner} {free : List Nat} {s s' : Kernel} {root elfData size page phoff : Nat} {dir : Directory}
  {user : UserMap} {file : Mem} {halt : Halt → Kernel → Prop}

namespace FileAt

end FileAt

end

section

attribute [local instance] Layout.sample

end

end KuroOS
