/-
The child's side of a spawn (executor_child_exec in executor.c, with what it reads of
process_config.c and platform/): from the fork to `execve` or to the exit code that says what went
wrong. The standard streams are redirected one after the other in one descriptor table, so a stream
that comes later finds what the earlier ones left.
-/
import EmblaOs.Host
import EmblaOs.Lib.Descriptors

namespace EmblaOs

open Lib

/-! ## The configuration -/

/-- A `has_…` flag and its value are an option; -1 in a descriptor field means that it is not set. -/
structure ProcessConfig where
  path : String
  argv : List String
  workingDirectory : Option String
  envp : Option (List String)
  stdinFd : Int
  stdoutFd : Int
  stderrFd : Int
  umask : Option Nat
  /-- the user and the group -/
  credentials : Option (Nat × Nat)
  memoryLimit : Option Nat
  cpuLimit : Option Nat
  fdLimit : Option Nat

/-- `process_config_create` when there is memory. -/
def processConfigCreate (path : String) (argv : List String) : ProcessConfig :=
  ⟨path, argv, none, none, -1, -1, -1, none, none, none, none, none⟩

def processConfigSetStdinFd (config : ProcessConfig) (fd : Int) : Int × ProcessConfig :=
  if fd < 0 then (-1, config) else (0, { config with stdinFd := fd })

def processConfigSetStdoutFd (config : ProcessConfig) (fd : Int) : Int × ProcessConfig :=
  if fd < 0 then (-1, config) else (0, { config with stdoutFd := fd })

def processConfigSetStderrFd (config : ProcessConfig) (fd : Int) : Int × ProcessConfig :=
  if fd < 0 then (-1, config) else (0, { config with stderrFd := fd })

/-! ## The host of the child -/

inductive Resource
  | addressSpace
  | cpu
  | openFiles
  deriving DecidableEq, Repr

/-- What the calls of the child answer. -/
structure ChildHost where
  platform : Platform
  setpgid : Bool
  chdir : String → Bool
  /-- does the `dup2` onto this descriptor go through when its source is open -/
  dup2 : Int → Bool
  /-- the hard limit, `some none` for RLIM_INFINITY -/
  getrlimit : Resource → Option (Option Nat)
  setrlimit : Resource → Nat → Bool
  setgid : Nat → Bool
  setuid : Nat → Bool

inductive ChildCall
  | setpgid (group : Int)
  | chdir (path : String)
  | umask (mask : Nat)
  | dup2 (old new : Int)
  | close (fd : Int)
  | setrlimit (resource : Resource) (limit : Nat)
  | setgid (gid : Nat)
  | setuid (uid : Nat)
  deriving DecidableEq, Repr

/-- The child: its descriptors and the calls it has made, latest first. -/
structure Child (F : Type) where
  descriptors : Descriptors F
  calls : List ChildCall

namespace Child

variable {F : Type}

def made (call : ChildCall) (c : Child F) : Child F := { c with calls := call :: c.calls }

def dup2 (host : ChildHost) (old new : Int) (c : Child F) : Option (Child F) :=
  if host.dup2 new then (c.descriptors.dup2 old new).map fun t => { c.made (.dup2 old new) with descriptors := t }
  else none

def close (fd : Int) (c : Child F) : Child F := { c.made (.close fd) with descriptors := c.descriptors.close fd }

end Child

/-- The requested limit, cut to the hard one. -/
def effectiveLimit (requested : Nat) : Option Nat → Nat
  | none => requested
  | some hard => if requested > hard then hard else requested

def platformApplyRlimit {F : Type} (host : ChildHost) (resource : Resource) (requested : Nat) (c : Child F) :
    Option (Child F) :=
  match host.getrlimit resource with
  | none => none
  | some current =>
    if host.setrlimit resource (effectiveLimit requested current) then
      some (c.made (.setrlimit resource (effectiveLimit requested current)))
    else none

def platformApplyMemoryLimit {F : Type} (host : ChildHost) (bytes : Nat) (c : Child F) : Option (Child F) :=
  match host.platform with
  | .linux => platformApplyRlimit host .addressSpace bytes c
  | .darwin => none

/-! ## From the fork to `execve` -/

section Exec

variable {F : Type}

/-- A step that ends the child with `_exit(code)` when its call fails. -/
def childStep (answer : Option (Child F)) (code : Int) : Except Int (Child F) :=
  match answer with
  | none => .error code
  | some c => .ok c

/-- A call that the host answers and that leaves the descriptors alone. -/
def childCall (ok : Bool) (call : ChildCall) (c : Child F) : Option (Child F) :=
  if ok then some (c.made call) else none

/-- One of the three redirections; `fds` is `redirect_fds` so far. -/
def childRedirect (host : ChildHost) (source target code : Int) (c : Child F) (fds : List Int) :
    Except Int (Child F × List Int) :=
  if source ≠ -1 then
    match c.dup2 host source target with
    | none => .error code
    | some c => .ok (c, fds ++ [source])
  else .ok (c, fds)

/-- The loop that closes the sources, `seen` being `redirect_fds` up to the index. -/
def childCloseSources : List Int → List Int → Child F → Child F
  | _, [], c => c
  | seen, fd :: rest, c =>
    childCloseSources (seen ++ [fd]) rest
      (if fd = 0 ∨ fd = 1 ∨ fd = 2 then c else if fd ∈ seen then c else c.close fd)

/-- The redirections and the loop after them. -/
def childRedirectStreams (host : ChildHost) (config : ProcessConfig) (c : Child F) : Except Int (Child F) := do
  let (c, fds) ← childRedirect host config.stdinFd 0 121 c []
  let (c, fds) ← childRedirect host config.stdoutFd 1 122 c fds
  let (c, fds) ← childRedirect host config.stderrFd 2 123 c fds
  return childCloseSources [] fds c

/-- A step that is made only for a value that is set. -/
def childOption {α : Type} (value : Option α) (step : α → Child F → Option (Child F)) (code : Int) (c : Child F) :
    Except Int (Child F) :=
  match value with
  | none => .ok c
  | some v => childStep (step v c) code

/-- The three limits. -/
def childLimit (host : ChildHost) (config : ProcessConfig) (c : Child F) : Except Int (Child F) := do
  let c ← childOption config.memoryLimit (platformApplyMemoryLimit host) 128 c
  let c ← childOption config.cpuLimit (platformApplyRlimit host .cpu) 129 c
  childOption config.fdLimit (platformApplyRlimit host .openFiles) 130 c

def childCredentials (host : ChildHost) (config : ProcessConfig) (c : Child F) : Except Int (Child F) :=
  match config.credentials with
  | none => .ok c
  | some (uid, gid) => do
    let c ← childStep (childCall (host.setgid gid) (.setgid gid) c) 124
    childStep (childCall (host.setuid uid) (.setuid uid) c) 125

def childUmask (config : ProcessConfig) (c : Child F) : Child F :=
  match config.umask with
  | none => c
  | some mask => c.made (.umask mask)

/-- The call of `execve` that a child gets to. -/
structure Execve (F : Type) where
  path : String
  argv : List String
  envp : List String
  child : Child F

/-- The call of `execve`, or the exit code of a child that does not get there. -/
def executorChildExec (targetHostGroupId : Int) (config : ProcessConfig) (environ : List String) (host : ChildHost)
    (c : Child F) : Except Int (Execve F) := do
  let c ← childStep (childCall host.setpgid (.setpgid targetHostGroupId) c) 126
  let c ← childOption config.workingDirectory (fun path => childCall (host.chdir path) (.chdir path)) 120 c
  let c ← childRedirectStreams host config (childUmask config c)
  let c ← childLimit host config c
  let c ← childCredentials host config c
  return ⟨config.path, config.argv, config.envp.getD environ, c⟩

/-- What becomes of a child. -/
inductive ChildEnd (F : Type)
  | program (call : Execve F)
  | exited (code : Int)

/-- `executor_child_exec` to its end. `execve` tells which calls go through; one that returns has failed. -/
def executorChildEnd (execve : Execve F → Bool) (targetHostGroupId : Int) (config : ProcessConfig) (environ : List String)
    (host : ChildHost) (c : Child F) : ChildEnd F :=
  match executorChildExec targetHostGroupId config environ host c with
  | .error code => .exited code
  | .ok call => if execve call then .program call else .exited 127

end Exec

end EmblaOs
