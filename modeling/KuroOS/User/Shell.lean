import KuroOS.Base.Calls
import KuroOS.Print.Console

/-!
# The shell: `init.c`

The first user program reads commands and runs them, some of them in children that it
forks. Its local arrays `line` and, in `cmd_readtest`, `buf` lie at some addresses of its
stack.
-/

namespace KuroOS

open Base

/-- The system calls of the shell, its output, and the byte that it stores for its output. -/
inductive ShellCall where
  | puts (s : PutString)
  | printf (fmt : String) (args : List Arg)
  | read (fd : Int) (buf len : Nat)
  | yield
  | getpid
  | fork
  | ps
  | exec (name : PutString)
  | store (address : Nat) (byte : UInt8)
deriving DecidableEq, Repr

/-- What a call returns, and the memory of the program after it. -/
structure Reply where
  value : Int
  mem : Mem

/-- How a program ends: it has called `exit`, or `exec` has replaced it. -/
inductive ShellEnd where
  | exited (code : Int)
  | replaced (name : PutString)
deriving DecidableEq, Repr

/-- A program that makes the shell's calls. -/
abbrev Shell (α : Type) := Calls ShellCall Reply ShellEnd α

namespace Shell

/-- A call and its reply. -/
def call (c : ShellCall) : Shell Reply := Calls.call c .done

def puts (text : String) : Shell Unit := do let _ ← call (.puts (.literal text))

def putsLine (address : Nat) : Shell Unit := do let _ ← call (.puts (.caller address))

def printf (fmt : String) (args : List Arg) : Shell Unit := do let _ ← call (.printf fmt args)

def yield : Shell Unit := do let _ ← call .yield

def ps : Shell Unit := do let _ ← call .ps

def getpid : Shell Int := do return (← call .getpid).value

def fork : Shell Int := do return (← call .fork).value

/-- `exit` does not return. -/
def exit (code : Int) : Shell Unit := Calls.ended (.exited code)

/-- A `long` that is passed to `printf`. -/
def long (value : Int) : Arg := .long (.ofInt 64 value)

/-- An `int` that is passed to `printf`. -/
def int (value : Int) : Arg := .int (.ofInt 32 value)

/-- `for (int i = 0; i < n; i++) yield();` -/
def yields : (n : Nat) → Shell Unit
  | 0 => return ()
  | n + 1 => do
      yield
      yields n

/-- Some `puts`. -/
def putsAll : List String → Shell Unit
  | [] => return ()
  | text :: rest => do
      puts text
      putsAll rest

/-- `streq`, whose second string is a literal. -/
def streq (a : Nat → UInt8) : (b : List UInt8) → Bool
  | [] => a 0 == 0
  | c :: rest => if a 0 ≠ 0 ∧ c ≠ 0 then if a 0 ≠ c then false else streq (fun i => a (i + 1)) rest else a 0 == c

/-- `cmd_help`. -/
def cmdHelp : Shell Unit :=
  putsAll ["available commands:\n", "  help      - show this help\n", "  hello     - print hello message\n",
    "  about     - about this OS\n", "  pid       - show current process ID\n", "  ps        - list all processes\n",
    "  yield     - yield CPU to other tasks\n", "  fork      - fork a child process\n",
    "  forktest  - fork and show processes in parent\n", "  forkloop  - fork multiple children\n",
    "  exec NAME - execute program from initrd\n", "  exectest  - fork and exec hello program\n",
    "  readtest  - test reading input\n", "  looptest  - busy loop test (preemptive scheduling)\n",
    "  exit      - exit the shell\n"]

/-- `cmd_hello`. -/
def cmdHello : Shell Unit := puts "Hello from KuroOS user shell!\n"

/-- `cmd_about`. -/
def cmdAbout : Shell Unit :=
  putsAll ["KuroOS - Minimal RISC-V Operating System\n", "Features:\n", "  - Sv39 virtual memory\n",
    "  - Preemptive scheduling (timer interrupt)\n", "  - User mode (U-mode) processes\n", "  - fork() and exec() system calls\n"]

/-- `cmd_pid`. -/
def cmdPid : Shell Unit := do printf "current pid: %ld\n" [long (← getpid)]

/-- `cmd_ps`. -/
def cmdPs : Shell Unit := do
  puts "process list:\n"
  ps

/-- `cmd_yield`. -/
def cmdYield : Shell Unit := do
  puts "yielding CPU...\n"
  yield
  puts "resumed after yield\n"

/-- `cmd_fork`. -/
def cmdFork : Shell Unit := do
  let pid ← fork
  if pid < 0 then
    puts "fork failed!\n"
  else if pid = 0 then
    printf "[child]  pid=%ld, hello from child!\n" [long (← getpid)]
    exit 0
  else
    printf "[parent] forked child pid=%ld\n" [long pid]

/-- A child of `cmd_forktest`. -/
def forktestChild (hello : String) : Shell Unit := do
  printf hello [long (← getpid)]
  yields 20
  exit 0

/-- `cmd_forktest`. -/
def cmdForktest : Shell Unit := do
  puts "=== fork test ===\n"
  puts "before fork:\n"
  ps
  puts "\nforking 2 children...\n"
  let pid₁ ← fork
  if pid₁ = 0 then
    forktestChild "[child1] pid=%ld alive!\n"
  let pid₂ ← fork
  if pid₂ = 0 then
    forktestChild "[child2] pid=%ld alive!\n"
  printf "[parent] created children: %ld, %ld\n" [long pid₁, long pid₂]
  puts "\nparent calling ps (children should be visible):\n"
  ps
  puts "\nparent waiting for children...\n"
  yields 10
  puts "\nparent calling ps again:\n"
  ps
  puts "\nparent done\n"

/-- The first loop of `cmd_forkloop`, with this many rounds left. -/
def forkloop : (left : Nat) → (i : Int) → Shell Unit
  | 0, _ => return ()
  | left + 1, i => do
      let pid ← fork
      if pid < 0 then
        -- `break`
        puts "fork failed!\n"
      else if pid = 0 then
        printf "[child %d] pid=%ld alive!\n" [int i, long (← getpid)]
        yields 15
        exit i
      else
        printf "[parent] created child pid=%ld\n" [long pid]
        forkloop left (i + 1)

/-- `cmd_forkloop`. -/
def cmdForkloop : Shell Unit := do
  puts "forking 3 children...\n"
  forkloop 3 0
  puts "parent done forking\n"
  puts "run 'ps' to see all processes!\n"
  yields 20
  puts "parent done\n"

/-- `cmd_exec`. -/
def cmdExec (name : Nat) : Shell Unit := do
  printf "exec: running '%s'...\n" [.pointer name]
  let ret ← call (.exec (.caller name))
  if ret.value < 0 then
    printf "exec: failed to run '%s'\n" [.pointer name]

/-- `cmd_exectest`. -/
def cmdExectest : Shell Unit := do
  let pid ← fork
  if pid < 0 then
    puts "fork failed!\n"
  else if pid = 0 then
    puts "[child] exec hello...\n"
    let _ ← call (.exec (.literal "hello"))
    puts "[child] exec failed!\n"
    exit 1
  else
    printf "[parent] forked child pid=%ld, waiting...\n" [long pid]
    yields 10
    puts "[parent] done\n"

/-- `cmd_readtest`. -/
def cmdReadtest (buf : Nat) : Shell Unit := do
  puts "enter something: "
  let n ← call (.read 0 buf 63)
  if 0 < n.value then
    let _ ← call (.store (buf + n.value.toNat) 0)
    printf "you entered: %s\n" [.pointer buf]
  else
    puts "read error\n"

/-- `cmd_looptest`. The loop makes no calls. -/
def cmdLooptest : Shell Unit := do
  let pid ← getpid
  printf "[pid %d] starting busy loop (will be preempted by timer)...\n" [int pid]
  printf "[pid %d] loop finished\n" [int pid]

/-- The commands of `user_main`, and the line that was read. -/
def command (line buf : Nat) (text : Nat → UInt8) : Shell Unit :=
  let is (word : String) : Bool := streq text (word.toList.map ascii)
  if is "" then return ()
  else if is "help" then cmdHelp
  else if is "hello" then cmdHello
  else if is "about" then cmdAbout
  else if is "pid" ∨ is "getpid" then cmdPid
  else if is "ps" then cmdPs
  else if is "yield" then cmdYield
  else if is "fork" then cmdFork
  else if is "forktest" then cmdForktest
  else if is "forkloop" then cmdForkloop
  else if is "readtest" then cmdReadtest buf
  else if is "looptest" then cmdLooptest
  else if is "exectest" then cmdExectest
  else if is "exit" ∨ is "quit" then do
    puts "goodbye!\n"
    exit 0
  else if text 0 = ascii 'e' ∧ text 1 = ascii 'x' ∧ text 2 = ascii 'e' ∧ text 3 = ascii 'c' ∧ text 4 = ascii ' ' then
    cmdExec (line + 5)
  else do
    puts "unknown command: "
    putsLine line
    puts "\n"

/-- A round of the loop of `user_main`. -/
def userMainRound (line buf : Nat) : Shell Unit := do
  puts "> "
  let n ← call (.read 0 line 80)
  if n.value < 0 then
    puts "read error\n"
  else
    command line buf fun i => n.mem (line + i)

/-- `user_main` before its loop. -/
def userMainStart : Shell Unit := putsAll ["=== KuroOS Shell ===\n", "type 'help' for commands\n\n"]

/-- What the kernel does for the shell: `exec` replaces it or returns -1, and the other calls return. -/
def shellEnvironment : Environment ShellCall Reply ShellEnd where
  replies
    | .exec _, r => r.value = -1
    | _, _ => True
  ends
    | .exec name, how => how = .replaced name
    | _, _ => False

/-- The runs of `user_main` in a process and in the children that it becomes, finished or not. -/
def UserMain (line buf : Nat) (log : List (ShellCall × Reply)) (how : Option ShellEnd) : Prop :=
  Forever shellEnvironment (userMainRound line buf) userMainStart log how

/-! ### The processes of the shell -/

/-- What a process of the shell is: a child that a command has forked or not, and the line that it has read last. -/
structure Role where
  child : Bool
  text : Nat → UInt8

/-- A line begins with the word `exec` and a blank. -/
def BeginsExec (text : Nat → UInt8) : Prop :=
  text 0 = ascii 'e' ∧ text 1 = ascii 'x' ∧ text 2 = ascii 'e' ∧ text 3 = ascii 'c' ∧ text 4 = ascii ' '

/-- Follows a process: what its role is, and what it may do in it. A child reads nothing and forks no child. -/
def follow (line : Nat) : Monitor ShellCall Reply ShellEnd Role where
  step role
    | (.fork, r) => { role with child := role.child || r.value == 0 }
    | (.read _ buf _, r) => if buf = line then { role with text := fun i => r.mem (line + i) } else role
    | _ => role
  allows role c := role.child = true → c ≠ .fork ∧ ∀ fd buf len, c ≠ .read fd buf len
  ends role
    | .exited code => role.child = true ∨
        code = 0 ∧ (Spells role.text ("exit".toList.map ascii) ∨ Spells role.text ("quit".toList.map ascii))
    | .replaced name => if role.child then name = .literal "hello" else name = .caller (line + 5) ∧ BeginsExec role.text

/-- `streq` compares strings. -/
theorem streq_iff {a : Nat → UInt8} {b : List UInt8} (plain : 0 ∉ b) : streq a b = true ↔ Spells a b := by
  induction b generalizing a with
  | nil => exact ⟨fun same => ⟨nofun, by simpa [streq] using same, plain⟩, fun spells => by simpa [streq] using spells.stop⟩
  | cons c rest ih =>
      obtain ⟨nonzero, more⟩ : c ≠ 0 ∧ 0 ∉ rest := by simpa [eq_comm] using plain
      have step : streq a (c :: rest) = true ↔ a 0 = c ∧ streq (fun i => a (i + 1)) rest = true := by
        rw [streq]
        by_cases same : a 0 = c
        · rw [if_pos ⟨same ▸ nonzero, nonzero⟩, if_neg (not_not.mpr same)]
          simp [same]
        · split <;> simp [same]
      rw [step, ih more]
      constructor
      · rintro ⟨first, spells⟩
        refine ⟨fun i inside => ?_, spells.stop, plain⟩
        cases i with
        | zero => exact first
        | succ i => exact spells.char i (Nat.lt_of_succ_lt_succ inside)
      · intro spells
        exact ⟨spells.char 0 (Nat.succ_pos _), fun i inside => spells.char (i + 1) (Nat.succ_lt_succ inside), spells.stop, more⟩

variable {line buf n : Nat} {role : Role} {c : ShellCall} {texts : List String}

/-- The program keeps to the role of its process. -/
abbrev Follows {α : Type} (line : Nat) (program : Shell α) (post : α → Role → Prop) (role : Role) : Prop :=
  KeepsTo shellEnvironment (follow line) program post role

/-- A call that every process may make. -/
def Harmless : ShellCall → Prop
  | .fork | .read .. | .exec _ => False
  | _ => True

theorem follows_call {post : Reply → Role → Prop} (harmless : Harmless c) (after : ∀ r, post r role) : Follows line (call c) post role := by
  cases c with
  | fork => exact harmless.elim
  | read fd buf len => exact harmless.elim
  | exec name => exact harmless.elim
  | _ => exact ⟨fun _ => ⟨nofun, nofun⟩, nofun, fun r _ => after r⟩

/-- A call whose reply is not used. -/
theorem follows_discard {post : Unit → Role → Prop} (harmless : Harmless c) (after : post () role) :
    Follows line (do let _ ← call c) post role :=
  KeepsTo.bind_iff.mpr (follows_call harmless fun _ => after)

theorem follows_puts {post : Unit → Role → Prop} {text : String} (after : post () role) : Follows line (puts text) post role :=
  follows_discard trivial after

theorem follows_putsAll {post : Unit → Role → Prop} (after : post () role) : Follows line (putsAll texts) post role := by
  induction texts with
  | nil => exact after
  | cons text rest ih => exact KeepsTo.bind_iff.mpr (follows_puts ih)

theorem follows_printf {post : Unit → Role → Prop} {fmt : String} {args : List Arg} (after : post () role) :
    Follows line (printf fmt args) post role :=
  follows_discard trivial after

theorem follows_yields {post : Unit → Role → Prop} (after : post () role) : Follows line (yields n) post role := by
  induction n with
  | zero => exact after
  | succ n ih => exact KeepsTo.bind_iff.mpr (follows_discard trivial ih)

theorem follows_getpid {post : Int → Role → Prop} (after : ∀ pid, post pid role) : Follows line getpid post role :=
  KeepsTo.bind_iff.mpr (follows_call trivial fun r => after r.value)

theorem follows_ite {P : Prop} [Decidable P] {program other : Shell Unit} {post : Unit → Role → Prop}
    (yes : P → Follows line program post role) (no : ¬ P → Follows line other post role) :
    Follows line (if P then program else other) post role := by
  split
  · next holds => exact yes holds
  · next fails => exact no fails

/-- Both processes go on after a `fork`. -/
theorem follows_fork {post : Int → Role → Prop} (shell : role.child = false) (child : post 0 { role with child := true })
    (parent : ∀ pid ≠ 0, post pid role) : Follows line fork post role := by
  refine KeepsTo.bind_iff.mpr ⟨fun isChild => by simp [shell] at isChild, nofun, fun r _ => ?_⟩
  by_cases isChild : r.value = 0
  · have after : (follow line).step role (.fork, r) = { role with child := true } := by simp [follow, isChild]
    rw [after]
    have goes : post r.value { role with child := true } := isChild.symm ▸ child
    exact goes
  · have after : (follow line).step role (.fork, r) = role := by
      cases role with
      | mk flag text =>
          obtain rfl : flag = false := shell
          simp [follow, isChild]
    rw [after]
    exact parent r.value isChild

/-- The shell reads. -/
theorem follows_read {post : Reply → Role → Prop} {fd : Int} {len : Nat} (shell : role.child = false)
    (after : ∀ r role', role'.child = false → (buf = line → role'.text = fun i => r.mem (line + i)) → post r role') :
    Follows line (call (.read fd buf len)) post role := by
  refine ⟨fun isChild => by simp [shell] at isChild, nofun, fun r _ => after r _ ?_ fun isLine => ?_⟩
  · by_cases isLine : buf = line <;> simp [follow, isLine, shell]
  · simp [follow, isLine]

theorem follows_exec {post : Reply → Role → Prop} {name : PutString} (ends : (follow line).ends role (.replaced name))
    (after : ∀ r, post r role) : Follows line (call (.exec name)) post role := by
  refine ⟨fun _ => ⟨nofun, nofun⟩, ?_, fun r _ => after r⟩
  rintro _ rfl
  exact ends

/-- A command returns to the prompt in the shell itself, and in no child. -/
abbrev Returns {α : Type} (line : Nat) (program : Shell α) (role : Role) : Prop :=
  Follows line program (fun _ role => role.child = false) role

variable {text : Nat → UInt8}

theorem cmdFork_returns (shell : role.child = false) : Returns line cmdFork role := by
  refine KeepsTo.bind_iff.mpr (follows_fork shell ?_ fun pid other => ?_)
  · rw [if_neg (by decide), if_pos rfl]
    exact KeepsTo.bind_iff.mpr (follows_getpid fun pid => KeepsTo.bind_iff.mpr (follows_printf (.inl rfl)))
  · rw [if_neg other]
    split
    · exact follows_puts shell
    · exact follows_printf shell

/-- A child of `cmd_forktest` exits. -/
theorem forktestChild_exits {post : Unit → Role → Prop} {hello : String} (child : role.child = true) :
    Follows line (forktestChild hello) post role := by
  refine KeepsTo.bind_iff.mpr (follows_getpid fun pid => KeepsTo.bind_iff.mpr (follows_printf ?_))
  exact KeepsTo.bind_iff.mpr (follows_yields (.inl child))

theorem cmdForktest_returns (shell : role.child = false) : Returns line cmdForktest role := by
  refine KeepsTo.bind_iff.mpr (follows_puts (KeepsTo.bind_iff.mpr (follows_puts (KeepsTo.bind_iff.mpr (follows_discard trivial ?_)))))
  refine KeepsTo.bind_iff.mpr (follows_puts (KeepsTo.bind_iff.mpr (follows_fork shell ?_ fun pid₁ other₁ => ?_)))
  · rw [if_pos rfl]
    exact KeepsTo.bind_iff.mpr (forktestChild_exits rfl)
  rw [if_neg other₁]
  refine KeepsTo.bind_iff.mpr (follows_fork shell ?_ fun pid₂ other₂ => ?_)
  · rw [if_pos rfl]
    exact KeepsTo.bind_iff.mpr (forktestChild_exits rfl)
  rw [if_neg other₂]
  refine KeepsTo.bind_iff.mpr (follows_printf (KeepsTo.bind_iff.mpr (follows_puts (KeepsTo.bind_iff.mpr (follows_discard trivial ?_)))))
  refine KeepsTo.bind_iff.mpr (follows_puts (KeepsTo.bind_iff.mpr (follows_yields (KeepsTo.bind_iff.mpr (follows_puts ?_)))))
  exact KeepsTo.bind_iff.mpr (follows_discard trivial (follows_puts shell))

theorem forkloop_returns {i : Int} (shell : role.child = false) : Returns line (forkloop n i) role := by
  induction n generalizing i with
  | zero => exact shell
  | succ n ih =>
      refine KeepsTo.bind_iff.mpr (follows_fork shell ?_ fun pid other => ?_)
      · rw [if_neg (by decide), if_pos rfl]
        refine KeepsTo.bind_iff.mpr (follows_getpid fun pid => KeepsTo.bind_iff.mpr (follows_printf ?_))
        exact KeepsTo.bind_iff.mpr (follows_yields (.inl rfl))
      · rw [if_neg other]
        split
        · exact follows_puts shell
        · exact KeepsTo.bind_iff.mpr (follows_printf ih)

theorem cmdForkloop_returns (shell : role.child = false) : Returns line cmdForkloop role := by
  refine KeepsTo.bind_iff.mpr (follows_puts (KeepsTo.bind_iff.mpr (KeepsTo.mono (forkloop_returns shell) fun _ role shell => ?_)))
  refine KeepsTo.bind_iff.mpr (follows_puts (KeepsTo.bind_iff.mpr (follows_puts (KeepsTo.bind_iff.mpr (follows_yields ?_)))))
  exact follows_puts shell

theorem cmdExec_returns (shell : role.child = false) (begins : BeginsExec role.text) : Returns line (cmdExec (line + 5)) role := by
  have ends : (follow line).ends role (.replaced (.caller (line + 5))) := by simp [follow, shell, begins]
  refine KeepsTo.bind_iff.mpr (follows_printf (KeepsTo.bind_iff.mpr (follows_exec ends fun r => ?_)))
  split
  · exact follows_printf shell
  · exact shell

theorem cmdExectest_returns (shell : role.child = false) : Returns line cmdExectest role := by
  refine KeepsTo.bind_iff.mpr (follows_fork shell ?_ fun pid other => ?_)
  · rw [if_neg (by decide), if_pos rfl]
    refine KeepsTo.bind_iff.mpr (follows_puts (KeepsTo.bind_iff.mpr (follows_exec (by simp [follow]) fun r => ?_)))
    exact KeepsTo.bind_iff.mpr (follows_puts (.inl rfl))
  · rw [if_neg other]
    split
    · exact follows_puts shell
    · exact KeepsTo.bind_iff.mpr (follows_printf (KeepsTo.bind_iff.mpr (follows_yields (follows_puts shell))))

theorem cmdReadtest_returns (shell : role.child = false) : Returns line (cmdReadtest buf) role := by
  refine KeepsTo.bind_iff.mpr (follows_puts (KeepsTo.bind_iff.mpr (follows_read shell fun r role' shell' _ => ?_)))
  split
  · exact KeepsTo.bind_iff.mpr (follows_call trivial fun _ => follows_printf shell')
  · exact follows_puts shell'

theorem cmdLooptest_returns (shell : role.child = false) : Returns line cmdLooptest role :=
  KeepsTo.bind_iff.mpr (follows_getpid fun _ => KeepsTo.bind_iff.mpr (follows_printf (follows_printf shell)))

/-- Every command does, but for `exit` and a successful `exec`. -/
theorem command_returns (shell : role.child = false) (isText : role.text = text) : Returns line (command line buf text) role := by
  have word : ∀ {w : String}, 0 ∉ w.toList.map ascii → streq text (w.toList.map ascii) = true → Spells role.text (w.toList.map ascii) :=
    fun plain same => isText ▸ (streq_iff plain).mp same
  unfold command
  refine follows_ite (fun _ => shell) fun _ => follows_ite (fun _ => follows_putsAll shell) fun _ => ?_
  refine follows_ite (fun _ => follows_puts shell) fun _ => follows_ite (fun _ => follows_putsAll shell) fun _ => ?_
  refine follows_ite (fun _ => KeepsTo.bind_iff.mpr (follows_getpid fun _ => follows_printf shell)) fun _ => ?_
  refine follows_ite (fun _ => KeepsTo.bind_iff.mpr (follows_puts (follows_discard trivial shell))) fun _ => ?_
  refine follows_ite (fun _ => ?_) fun _ => follows_ite (fun _ => cmdFork_returns shell) fun _ => ?_
  · exact KeepsTo.bind_iff.mpr (follows_puts (KeepsTo.bind_iff.mpr (follows_discard trivial (follows_puts shell))))
  refine follows_ite (fun _ => cmdForktest_returns shell) fun _ => follows_ite (fun _ => cmdForkloop_returns shell) fun _ => ?_
  refine follows_ite (fun _ => cmdReadtest_returns shell) fun _ => follows_ite (fun _ => cmdLooptest_returns shell) fun _ => ?_
  refine follows_ite (fun _ => cmdExectest_returns shell) fun _ => follows_ite (fun isExit => ?_) fun _ => ?_
  · exact KeepsTo.bind_iff.mpr (follows_puts (.inr ⟨rfl, isExit.imp (word (by decide)) (word (by decide))⟩))
  refine follows_ite (fun begins => cmdExec_returns shell (isText ▸ begins)) fun _ => ?_
  exact KeepsTo.bind_iff.mpr (follows_puts (KeepsTo.bind_iff.mpr (follows_discard trivial (follows_puts shell))))

theorem userMainRound_returns (shell : role.child = false) : Returns line (userMainRound line buf) role := by
  refine KeepsTo.bind_iff.mpr (follows_puts (KeepsTo.bind_iff.mpr (follows_read shell fun r role' shell' isText => ?_)))
  split
  · exact follows_puts shell'
  · exact command_returns shell' (isText rfl)

/-- A `fork` has returned 0: the process is a child of the shell. -/
def ForkedOff (log : List (ShellCall × Reply)) : Prop := ∃ r, (.fork, r) ∈ log ∧ r.value = 0

/-- What a call leaves in `line`. -/
def readLine (line : Nat) (text : Nat → UInt8) : ShellCall × Reply → Nat → UInt8
  | (.read _ buf _, r) => if buf = line then fun i => r.mem (line + i) else text
  | _ => text

/-- The line that was read last. -/
def lastLine (line : Nat) (log : List (ShellCall × Reply)) : Nat → UInt8 := log.foldl (readLine line) fun _ => 0

variable {log : List (ShellCall × Reply)} {how : Option ShellEnd}

theorem step_text (event : ShellCall × Reply) : ((follow line).step role event).text = readLine line role.text event := by
  obtain ⟨c, r⟩ := event
  cases c with
  | read fd buf len =>
      simp only [follow, readLine]
      split <;> rfl
  | _ => rfl

theorem after_text : ((follow line).after role log).text = log.foldl (readLine line) role.text := by
  induction log generalizing role with
  | nil => rfl
  | cons event rest ih =>
      rw [List.foldl_cons, ← step_text]
      exact ih

theorem step_child (event : ShellCall × Reply) :
    ((follow line).step role event).child = true ↔ role.child = true ∨ event.1 = .fork ∧ event.2.value = 0 := by
  obtain ⟨c, r⟩ := event
  cases c with
  | fork => simp [follow]
  | read fd buf len =>
      simp only [follow, reduceCtorEq, false_and, or_false]
      split <;> rfl
  | _ => simp [follow]

theorem after_child : ((follow line).after role log).child = true ↔ role.child = true ∨ ForkedOff log := by
  induction log generalizing role with
  | nil => simp [Monitor.after, ForkedOff]
  | cons event rest ih =>
      have step : ((follow line).after role (event :: rest)).child = true ↔ ((follow line).step role event).child = true ∨ ForkedOff rest := ih
      rw [step, step_child, or_assoc]
      refine or_congr_right ⟨?_, ?_⟩
      · rintro (⟨isFork, isZero⟩ | ⟨r, inside, isZero⟩)
        · exact ⟨event.2, by rw [← isFork]; exact List.mem_cons_self, isZero⟩
        · exact ⟨r, List.mem_cons_of_mem _ inside, isZero⟩
      · rintro ⟨r, inside, isZero⟩
        rcases List.mem_cons.mp inside with is | later
        · exact .inl ⟨by rw [← is], by rw [← is]; exact isZero⟩
        · exact .inr ⟨r, later, isZero⟩

end Shell

open Shell

variable {line buf : Nat} {log : List (ShellCall × Reply)} {how : Option ShellEnd}

/-- In every run of the shell, in all its processes, a child that it has forked reads no
command and forks no child: it makes its other calls and exits, or becomes `hello`. The shell
itself exits only on a line `exit` or `quit`, and is replaced only by the program that a
line names after `exec`. -/
theorem user_main_processes (runs : UserMain line buf log how) :
    (∀ before r later, log = before ++ (.fork, r) :: later → r.value = 0 →
      ∀ event ∈ later, event.1 ≠ .fork ∧ ∀ fd buf len, event.1 ≠ .read fd buf len) ∧
    (∀ code, how = some (.exited code) → ForkedOff log ∨
      code = 0 ∧ (Spells (lastLine line log) ("exit".toList.map ascii) ∨ Spells (lastLine line log) ("quit".toList.map ascii))) ∧
    (∀ name, how = some (.replaced name) → (ForkedOff log → name = .literal "hello") ∧
      (¬ ForkedOff log → name = .caller (line + 5) ∧ BeginsExec (lastLine line log))) := by
  obtain ⟨first, isFirst⟩ : ∃ first : Role, first = ⟨false, fun _ => 0⟩ := ⟨_, rfl⟩
  have shell : first.child = false := by rw [isFirst]
  have start : Returns line userMainStart first := follows_putsAll shell
  have round : ∀ role : Role, role.child = false → Returns line (userMainRound line buf) role := fun _ => userMainRound_returns
  obtain ⟨allows, ends⟩ := start.forever round runs
  have text : ((follow line).after first log).text = lastLine line log := by rw [after_text, isFirst]; rfl
  have child : ∀ log, ((follow line).after first log).child = true ↔ ForkedOff log := fun log => by rw [after_child, shell]; simp
  refine ⟨fun before r later split isZero event inside => ?_, fun code isExit => ?_, fun name isExec => ?_⟩
  · obtain ⟨before', later', isLater⟩ := List.append_of_mem inside
    refine allows (before ++ (.fork, r) :: before') event.1 event.2 later' ?_ ((child _).mpr ⟨r, by simp, isZero⟩)
    rw [split, isLater, List.append_assoc, List.cons_append]
  · have ended : (follow line).ends ((follow line).after first log) (.exited code) := ends _ isExit
    rw [← child, ← text]
    exact ended
  · have ended : (follow line).ends ((follow line).after first log) (.replaced name) := ends _ isExec
    rw [← child, ← text]
    exact ⟨fun isChild => (if_pos isChild).mp ended, fun isShell => (if_neg isShell).mp ended⟩

/-- A child of the command `fork`. -/
theorem user_main_processes_sample : ∃ before r later, UserMain 4096 8192 (before ++ (.fork, r) :: later) (some (.exited 0)) ∧ r.value = 0 ∧
    ∀ event ∈ later, event.1 ≠ .fork ∧ ∀ fd buf len, event.1 ≠ .read fd buf len := by
  obtain ⟨typed, isTyped⟩ : ∃ typed : Reply, typed = ⟨4, fun x => ("fork".toList.map ascii ++ [0]).getD (x - 4096) 0⟩ := ⟨_, rfl⟩
  obtain ⟨zero, isZero⟩ : ∃ zero : Reply, zero = ⟨0, typed.mem⟩ := ⟨_, rfl⟩
  obtain ⟨banner, isBanner⟩ : ∃ banner : List (ShellCall × Reply), banner =
      [(.puts (.literal "=== KuroOS Shell ===\n"), zero), (.puts (.literal "type 'help' for commands\n\n"), zero)] := ⟨_, rfl⟩
  obtain ⟨later, isLater⟩ : ∃ later : List (ShellCall × Reply), later =
      [(.getpid, zero), (.printf "[child]  pid=%ld, hello from child!\n" [long 0], zero)] := ⟨_, rfl⟩
  have start : Runs shellEnvironment userMainStart banner (.returned ()) := by
    rw [isBanner]
    exact .call trivial (.call trivial (.done ()))
  have child : Runs shellEnvironment cmdFork ((.fork, zero) :: later) (.ended (.exited 0)) := by
    rw [isLater, isZero]
    exact .call trivial (.call trivial (.call trivial (.ended _)))
  have isFork : (command 4096 8192 fun i => typed.mem (4096 + i)) = cmdFork := by
    rw [isTyped]
    rfl
  have round : Runs shellEnvironment (userMainRound 4096 8192)
      ((.puts (.literal "> "), zero) :: (.read 0 4096 80, typed) :: (.fork, zero) :: later) (.ended (.exited 0)) := by
    have goes : Runs shellEnvironment
        (if typed.value < 0 then puts "read error\n" else command 4096 8192 fun i => typed.mem (4096 + i))
        ((.fork, zero) :: later) (.ended (.exited 0)) := by
      rw [if_neg (by rw [isTyped]; decide), isFork]
      exact child
    exact .call trivial (.call trivial goes)
  have runs : UserMain 4096 8192 ((banner ++ [(.puts (.literal "> "), zero), (.read 0 4096 80, typed)]) ++ (.fork, zero) :: later)
      (some (.exited 0)) := by
    rw [List.append_assoc]
    exact .again start (.ended round)
  have none : zero.value = 0 := by rw [isZero]
  exact ⟨_, zero, later, runs, none, (user_main_processes runs).1 _ zero later rfl none⟩

end KuroOS
