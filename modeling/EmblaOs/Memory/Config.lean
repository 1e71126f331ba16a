/-
The memory of a process configuration (process_config.c, string.c): every string and every string array
is a block of its own, a setter replaces a copy only after the new one is complete, and a call that is
refused memory gives back what it got so far. `Config.value` is what the rest of the program reads.
-/
import EmblaOs.Lib.Ledger
import EmblaOs.Process.Child

namespace EmblaOs.Memory

open Lib

/-- The address of a block. -/
abbrev Block := Nat

/-- What `malloc`, `calloc` and `free` work on. -/
abbrev Mem := Ledger Block

/-! ## Strings -/

/-- A string in a block. -/
structure Str where
  block : Block
  text : String
  deriving DecidableEq

/-- A NULL-terminated array in a block, each of its strings in another. -/
structure StringArray where
  block : Block
  strings : List Str
  deriving DecidableEq

def StringArray.texts (array : StringArray) : List String := array.strings.map Str.text

def StringArray.blocks (array : StringArray) : Multiset Block :=
  ((array.strings.map Str.block : List Block) : Multiset Block) + {array.block}

def emblaStrdup (string : String) (mem : Mem) : Option Str × Mem :=
  match mem.acquire with
  | (none, mem) => (none, mem)
  | (some block, mem) => (some ⟨block, string⟩, mem)

/-- The loop of `dup_string_array`, `copies` being filled in so far. -/
def dupStringsLoop (block : Block) (copies : List Str) : List String → Mem → Option StringArray × Mem
  | [], mem => (some ⟨block, copies⟩, mem)
  | string :: rest, mem =>
    match emblaStrdup string mem with
    | (none, mem) => (none, (mem.releaseAll (copies.map Str.block)).release block)
    | (some copy, mem) => dupStringsLoop block (copies ++ [copy]) rest mem

def dupStringArray (array : List String) (mem : Mem) : Option StringArray × Mem :=
  match mem.acquire with
  | (none, mem) => (none, mem)
  | (some block, mem) => dupStringsLoop block [] array mem

/-- `free(string)`, which may be NULL. -/
def freeStr : Option Str → Mem → Mem
  | none, mem => mem
  | some string, mem => mem.release string.block

def freeStringArray : Option StringArray → Mem → Mem
  | none, mem => mem
  | some array, mem => (mem.releaseAll (array.strings.map Str.block)).release array.block

/-! ## The configuration -/

/-- `struct ProcessConfig` at its address; a `has_…` flag and its value are an option. -/
structure Config where
  block : Block
  path : Str
  argv : StringArray
  workingDirectory : Option Str
  envp : Option StringArray
  stdinFd : Int
  stdoutFd : Int
  stderrFd : Int
  umask : Option Nat
  credentials : Option (Nat × Nat)
  memoryLimit : Option Nat
  cpuLimit : Option Nat
  fdLimit : Option Nat
  deriving DecidableEq

def strBlocks : Option Str → Multiset Block
  | none => 0
  | some string => {string.block}

def arrayBlocks : Option StringArray → Multiset Block
  | none => 0
  | some array => array.blocks

/-- What a configuration keeps allocated. -/
def Config.blocks (c : Config) : Multiset Block :=
  {c.block} + {c.path.block} + c.argv.blocks + strBlocks c.workingDirectory + arrayBlocks c.envp

/-- What can be read of it. -/
def Config.value (c : Config) : ProcessConfig where
  path := c.path.text
  argv := c.argv.texts
  workingDirectory := c.workingDirectory.map Str.text
  envp := c.envp.map StringArray.texts
  stdinFd := c.stdinFd
  stdoutFd := c.stdoutFd
  stderrFd := c.stderrFd
  umask := c.umask
  credentials := c.credentials
  memoryLimit := c.memoryLimit
  cpuLimit := c.cpuLimit
  fdLimit := c.fdLimit

def processConfigCreate (path : String) (argv : List String) (mem : Mem) : Option Config × Mem :=
  match mem.acquire with
  | (none, mem) => (none, mem)
  | (some block, mem) =>
    match emblaStrdup path mem with
    | (none, mem) => (none, mem.release block)
    | (some path, mem) =>
      match dupStringArray argv mem with
      | (none, mem) => (none, (mem.release path.block).release block)
      | (some argv, mem) =>
        (some ⟨block, path, argv, none, none, -1, -1, -1, none, none, none, none, none⟩, mem)

def processConfigDestroy (config : Config) (mem : Mem) : Mem :=
  let mem := mem.release config.path.block
  let mem := freeStringArray (some config.argv) mem
  let mem := freeStr config.workingDirectory mem
  let mem := freeStringArray config.envp mem
  mem.release config.block

def processConfigSetWorkingDirectory (config : Config) (workingDirectory : String) (mem : Mem) :
    Int × Config × Mem :=
  match emblaStrdup workingDirectory mem with
  | (none, mem) => (-1, config, mem)
  | (some copy, mem) => (0, { config with workingDirectory := some copy }, freeStr config.workingDirectory mem)

def processConfigSetEnv (config : Config) (envp : List String) (mem : Mem) : Int × Config × Mem :=
  match dupStringArray envp mem with
  | (none, mem) => (-1, config, mem)
  | (some copy, mem) => (0, { config with envp := some copy }, freeStringArray config.envp mem)

def processConfigSetStdinFd (config : Config) (fd : Int) : Int × Config :=
  if fd < 0 then (-1, config) else (0, { config with stdinFd := fd })

def processConfigSetStdoutFd (config : Config) (fd : Int) : Int × Config :=
  if fd < 0 then (-1, config) else (0, { config with stdoutFd := fd })

def processConfigSetStderrFd (config : Config) (fd : Int) : Int × Config :=
  if fd < 0 then (-1, config) else (0, { config with stderrFd := fd })

def processConfigSetUmask (config : Config) (umask : Nat) : Int × Config := (0, { config with umask := some umask })

def processConfigSetCredentials (config : Config) (uid gid : Nat) : Int × Config :=
  (0, { config with credentials := some (uid, gid) })

def processConfigSetMemoryLimit (config : Config) (bytes : Nat) : Int × Config :=
  (0, { config with memoryLimit := some bytes })

def processConfigSetCpuLimit (config : Config) (seconds : Nat) : Int × Config :=
  (0, { config with cpuLimit := some seconds })

def processConfigSetFdLimit (config : Config) (count : Nat) : Int × Config :=
  (0, { config with fdLimit := some count })

/-! ## What a call does to memory -/

section Calls

variable {mem : Mem} {r : Multiset Block} {n : Nat}

theorem emblaStrdup_gets (string : String) (h : mem.Holds r n) :
    (∃ mem', emblaStrdup string mem = (none, mem') ∧ mem'.Holds r (n + 1)) ∨
      ∃ block mem', emblaStrdup string mem = (some ⟨block, string⟩, mem') ∧ mem'.Holds ({block} + r) n := by
  unfold emblaStrdup
  rcases h.acquire with ⟨mem', hx, h'⟩ | ⟨block, mem', hx, h'⟩ <;> rw [hx]
  · exact .inl ⟨mem', rfl, h'⟩
  · exact .inr ⟨block, mem', rfl, h'⟩

/-- The array and the copies so far are held; they are all given back when a copy fails. -/
theorem dupStringsLoop_gets (block : Block) : ∀ (array : List String) {copies : List Str} {mem : Mem},
    mem.Holds ((StringArray.mk block copies).blocks + r) n →
      (∃ mem', dupStringsLoop block copies array mem = (none, mem') ∧ mem'.Holds r (n + 1)) ∨
        ∃ result mem', dupStringsLoop block copies array mem = (some result, mem') ∧
          result.texts = copies.map Str.text ++ array ∧ mem'.Holds (result.blocks + r) n
  | [], copies, mem, h => .inr ⟨_, mem, rfl, by simp [StringArray.texts], h⟩
  | string :: rest, copies, mem, h => by
    unfold dupStringsLoop
    rcases emblaStrdup_gets string h with ⟨mem', hx, h'⟩ | ⟨b, mem', hx, h'⟩ <;> simp only [hx]
    · refine .inl ⟨_, rfl, Ledger.Holds.release (Ledger.Holds.releaseAll (h'.congr ?_))⟩
      unfold StringArray.blocks
      rw [add_assoc]
    · have h₂ : mem'.Holds ((StringArray.mk block (copies ++ [⟨b, string⟩])).blocks + r) n := by
        refine h'.congr ?_
        simp only [StringArray.blocks, List.map_append, List.map_cons, List.map_nil, ← Multiset.coe_add,
          Multiset.coe_singleton]
        abel
      rcases dupStringsLoop_gets block rest h₂ with ⟨mem₂, hy, h₃⟩ | ⟨result, mem₂, hy, htexts, h₃⟩
      · exact .inl ⟨mem₂, hy, h₃⟩
      · exact .inr ⟨result, mem₂, hy, by rw [htexts]; simp, h₃⟩

theorem dupStringArray_gets (array : List String) (h : mem.Holds r n) :
    (∃ mem', dupStringArray array mem = (none, mem') ∧ mem'.Holds r (n + 1)) ∨
      ∃ result mem', dupStringArray array mem = (some result, mem') ∧ result.texts = array ∧
        mem'.Holds (result.blocks + r) n := by
  unfold dupStringArray
  rcases h.acquire with ⟨mem', hx, h'⟩ | ⟨block, mem', hx, h'⟩ <;> simp only [hx]
  · exact .inl ⟨mem', rfl, h'⟩
  · have h₂ : mem'.Holds ((StringArray.mk block []).blocks + r) n :=
      h'.congr (by simp [StringArray.blocks])
    simpa using dupStringsLoop_gets block array h₂

theorem freeStr_holds {string : Option Str} (h : mem.Holds (strBlocks string + r) n) :
    (freeStr string mem).Holds r n := by
  cases string with
  | none => exact h.congr (zero_add r)
  | some string => exact h.release

theorem freeStringArray_holds {array : Option StringArray} (h : mem.Holds (arrayBlocks array + r) n) :
    (freeStringArray array mem).Holds r n := by
  cases array with
  | none => exact h.congr (zero_add r)
  | some array =>
    refine Ledger.Holds.release (Ledger.Holds.releaseAll (h.congr ?_))
    simp only [arrayBlocks, StringArray.blocks]
    rw [add_assoc]

/-- A new configuration is the record with nothing set, or nothing is left of the attempt. -/
theorem processConfigCreate_gets (path : String) (argv : List String) (h : mem.Holds r n) :
    (∃ mem', processConfigCreate path argv mem = (none, mem') ∧ mem'.Holds r (n + 1)) ∨
      ∃ config mem', processConfigCreate path argv mem = (some config, mem') ∧
        config.value = EmblaOs.processConfigCreate path argv ∧ mem'.Holds (config.blocks + r) n := by
  unfold processConfigCreate
  rcases h.acquire with ⟨mem₁, hx, h₁⟩ | ⟨block, mem₁, hx, h₁⟩ <;> simp only [hx]
  · exact .inl ⟨mem₁, rfl, h₁⟩
  rcases emblaStrdup_gets path h₁ with ⟨mem₂, hy, h₂⟩ | ⟨b, mem₂, hy, h₂⟩ <;> simp only [hy]
  · exact .inl ⟨_, rfl, h₂.release⟩
  rcases dupStringArray_gets argv h₂ with ⟨mem₃, hz, h₃⟩ | ⟨array, mem₃, hz, htexts, h₃⟩ <;> simp only [hz]
  · exact .inl ⟨_, rfl, h₃.release.release⟩
  · refine .inr ⟨_, _, rfl, ?_, h₃.congr ?_⟩
    · simp only [Config.value, htexts]
      rfl
    · simp only [Config.blocks, strBlocks, arrayBlocks]
      abel

theorem processConfigDestroy_holds {config : Config} (h : mem.Holds (config.blocks + r) n) :
    (processConfigDestroy config mem).Holds r n := by
  refine Ledger.Holds.release (freeStringArray_holds (freeStr_holds
    (freeStringArray_holds (Ledger.Holds.release (h.congr ?_)))))
  simp only [Config.blocks, arrayBlocks]
  abel

end Calls

/-! ## Any calls in any order -/

/-- A call of one of the setters. -/
inductive ConfigOp
  | setWorkingDirectory (path : String)
  | setEnv (envp : List String)
  | setStdinFd (fd : Int)
  | setStdoutFd (fd : Int)
  | setStderrFd (fd : Int)
  | setUmask (mask : Nat)
  | setCredentials (uid gid : Nat)
  | setMemoryLimit (bytes : Nat)
  | setCpuLimit (seconds : Nat)
  | setFdLimit (count : Nat)
  deriving DecidableEq, Repr

namespace ConfigOp

/-- A call that uses no memory. -/
def plain (out : Int × Config) (mem : Mem) : Int × Config × Mem := (out.1, out.2, mem)

def exec : ConfigOp → Config → Mem → Int × Config × Mem
  | setWorkingDirectory path, config, mem => processConfigSetWorkingDirectory config path mem
  | setEnv envp, config, mem => processConfigSetEnv config envp mem
  | setStdinFd fd, config, mem => plain (processConfigSetStdinFd config fd) mem
  | setStdoutFd fd, config, mem => plain (processConfigSetStdoutFd config fd) mem
  | setStderrFd fd, config, mem => plain (processConfigSetStderrFd config fd) mem
  | setUmask mask, config, mem => plain (processConfigSetUmask config mask) mem
  | setCredentials uid gid, config, mem => plain (processConfigSetCredentials config uid gid) mem
  | setMemoryLimit bytes, config, mem => plain (processConfigSetMemoryLimit config bytes) mem
  | setCpuLimit seconds, config, mem => plain (processConfigSetCpuLimit config seconds) mem
  | setFdLimit count, config, mem => plain (processConfigSetFdLimit config count) mem

/-- What the call is for. -/
def apply : ConfigOp → ProcessConfig → ProcessConfig
  | setWorkingDirectory path, v => { v with workingDirectory := some path }
  | setEnv envp, v => { v with envp := some envp }
  | setStdinFd fd, v => { v with stdinFd := fd }
  | setStdoutFd fd, v => { v with stdoutFd := fd }
  | setStderrFd fd, v => { v with stderrFd := fd }
  | setUmask mask, v => { v with umask := some mask }
  | setCredentials uid gid, v => { v with credentials := some (uid, gid) }
  | setMemoryLimit bytes, v => { v with memoryLimit := some bytes }
  | setCpuLimit seconds, v => { v with cpuLimit := some seconds }
  | setFdLimit count, v => { v with fdLimit := some count }

/-- The call of a descriptor setter with what is no descriptor. -/
def Improper : ConfigOp → Prop
  | setStdinFd fd => fd < 0
  | setStdoutFd fd => fd < 0
  | setStderrFd fd => fd < 0
  | _ => False

instance : DecidablePred Improper
  | setWorkingDirectory _ => .isFalse id
  | setEnv _ => .isFalse id
  | setStdinFd fd => inferInstanceAs (Decidable (fd < 0))
  | setStdoutFd fd => inferInstanceAs (Decidable (fd < 0))
  | setStderrFd fd => inferInstanceAs (Decidable (fd < 0))
  | setUmask _ => .isFalse id
  | setCredentials _ _ => .isFalse id
  | setMemoryLimit _ => .isFalse id
  | setCpuLimit _ => .isFalse id
  | setFdLimit _ => .isFalse id

/-- The call does what it is for, or it fails without any effect: for its argument, or for the one
refusal of memory. -/
inductive Outcome (op : ConfigOp) (config : Config) (r : Multiset Block) (n : Nat) : Int × Config × Mem → Prop
  | done {config' : Config} {mem : Mem} (hvalue : config'.value = op.apply config.value)
      (hproper : ¬ op.Improper) (hmem : mem.Holds (config'.blocks + r) n) : Outcome op config r n (0, config', mem)
  | improper {mem : Mem} (h : op.Improper) (hmem : mem.Holds (config.blocks + r) n) :
      Outcome op config r n (-1, config, mem)
  | refused {mem : Mem} (hproper : ¬ op.Improper) (hmem : mem.Holds (config.blocks + r) (n + 1)) :
      Outcome op config r n (-1, config, mem)

variable {config : Config} {mem : Mem} {r : Multiset Block} {n : Nat}

theorem exec_workingDirectory (path : String) (h : mem.Holds (config.blocks + r) n) :
    Outcome (setWorkingDirectory path) config r n (processConfigSetWorkingDirectory config path mem) := by
  unfold processConfigSetWorkingDirectory
  rcases emblaStrdup_gets path h with ⟨mem', hx, h'⟩ | ⟨b, mem', hx, h'⟩ <;> simp only [hx]
  · exact .refused id h'
  · refine .done rfl id (freeStr_holds (h'.congr ?_))
    simp only [Config.blocks, strBlocks]
    abel

theorem exec_env (envp : List String) (h : mem.Holds (config.blocks + r) n) :
    Outcome (setEnv envp) config r n (processConfigSetEnv config envp mem) := by
  unfold processConfigSetEnv
  rcases dupStringArray_gets envp h with ⟨mem', hx, h'⟩ | ⟨array, mem', hx, htexts, h'⟩ <;> simp only [hx]
  · exact .refused id h'
  · refine .done ?_ id (freeStringArray_holds (h'.congr ?_))
    · simp only [Config.value, apply, Option.map_some, htexts]
    · simp only [Config.blocks, arrayBlocks]
      abel

theorem exec_outcome (op : ConfigOp) (h : mem.Holds (config.blocks + r) n) :
    op.Outcome config r n (op.exec config mem) := by
  cases op with
  | setWorkingDirectory path => exact exec_workingDirectory path h
  | setEnv envp => exact exec_env envp h
  | setStdinFd fd =>
    show (setStdinFd fd).Outcome config r n (plain (processConfigSetStdinFd config fd) mem)
    unfold processConfigSetStdinFd
    split
    · exact .improper ‹_› h
    · exact .done rfl ‹_› h
  | setStdoutFd fd =>
    show (setStdoutFd fd).Outcome config r n (plain (processConfigSetStdoutFd config fd) mem)
    unfold processConfigSetStdoutFd
    split
    · exact .improper ‹_› h
    · exact .done rfl ‹_› h
  | setStderrFd fd =>
    show (setStderrFd fd).Outcome config r n (plain (processConfigSetStderrFd config fd) mem)
    unfold processConfigSetStderrFd
    split
    · exact .improper ‹_› h
    · exact .done rfl ‹_› h
  | setUmask mask => exact .done rfl id h
  | setCredentials uid gid => exact .done rfl id h
  | setMemoryLimit bytes => exact .done rfl id h
  | setCpuLimit seconds => exact .done rfl id h
  | setFdLimit count => exact .done rfl id h

/-- Whatever comes of a call, the configuration owns what is held besides the rest. -/
theorem exec_holds (op : ConfigOp) (h : mem.Holds (config.blocks + r) n) :
    ∃ n', (op.exec config mem).2.2.Holds ((op.exec config mem).2.1.blocks + r) n' := by
  have hout := op.exec_outcome h
  generalize op.exec config mem = out at hout
  cases hout with
  | done _ _ hmem => exact ⟨n, hmem⟩
  | improper _ hmem => exact ⟨n, hmem⟩
  | refused _ hmem => exact ⟨n + 1, hmem⟩

end ConfigOp

/-- The calls one after the other, with what they return. -/
def configCalls : List ConfigOp → Config → Mem → List Int × Config × Mem
  | [], config, mem => ([], config, mem)
  | op :: rest, config, mem =>
    let (result, config, mem) := op.exec config mem
    let (results, config, mem) := configCalls rest config mem
    (result :: results, config, mem)

/-- The settings after the calls that went through. -/
def configAfter (value : ProcessConfig) : List ConfigOp → List Int → ProcessConfig
  | op :: ops, result :: results => configAfter (if result = 0 then op.apply value else value) ops results
  | _, _ => value

/-- A run of calls leaves exactly what the successful ones asked for, and one that fails is improper
or stands for one refusal of memory. -/
theorem configCalls_spec {r : Multiset Block} : ∀ (ops : List ConfigOp) {config : Config} {mem : Mem} {n : Nat},
    mem.Holds (config.blocks + r) n →
      ∃ results config' mem' n', configCalls ops config mem = (results, config', mem') ∧
        config'.value = configAfter config.value ops results ∧ results.length = ops.length ∧
        results.countP (· ≠ 0) + n = ops.countP (fun op => op.Improper) + n' ∧
        mem'.Holds (config'.blocks + r) n'
  | [], config, mem, n, h => ⟨[], config, mem, n, rfl, rfl, rfl, rfl, h⟩
  | op :: rest, config, mem, n, h => by
    rcases hx : op.exec config mem with ⟨result, config₁, mem₁⟩
    have hout := op.exec_outcome h
    rw [hx] at hout
    unfold configCalls
    simp only [hx]
    cases hout with
    | done hvalue hproper hmem =>
      obtain ⟨results, config', mem', n', hy, hafter, hlength, hcount, hmem'⟩ := configCalls_spec rest hmem
      refine ⟨0 :: results, config', mem', n', by rw [hy], ?_, congrArg (· + 1) hlength, ?_, hmem'⟩
      · rw [hafter, hvalue]; rfl
      · simpa [hproper] using hcount
    | improper himp hmem =>
      obtain ⟨results, config', mem', n', hy, hafter, hlength, hcount, hmem'⟩ := configCalls_spec rest hmem
      refine ⟨-1 :: results, config', mem', n', by rw [hy], ?_, congrArg (· + 1) hlength, ?_, hmem'⟩
      · simpa [configAfter] using hafter
      · rw [List.countP_cons_of_pos (by simp), List.countP_cons_of_pos (by simpa using himp)]
        omega
    | refused hproper hmem =>
      obtain ⟨results, config', mem', n', hy, hafter, hlength, hcount, hmem'⟩ := configCalls_spec rest hmem
      refine ⟨-1 :: results, config', mem', n', by rw [hy], ?_, congrArg (· + 1) hlength, ?_, hmem'⟩
      · simpa [configAfter] using hafter
      · rw [List.countP_cons_of_pos (by simp), List.countP_cons_of_neg (by simpa using hproper)]
        omega

/-- From creation over any calls to destruction, whatever memory is refused on the way: the settings are
those of the calls that went through, the configuration's blocks are what is held besides the rest, and
in the end the rest is held again. -/
theorem processConfig_lifetime {mem : Mem} {r : Multiset Block} {n : Nat} (h : mem.Holds r n) (path : String)
    (argv : List String) (ops : List ConfigOp) :
    (∃ mem', processConfigCreate path argv mem = (none, mem') ∧ mem'.Holds r (n + 1)) ∨
      ∃ config mem₁ results config' mem₂ n', processConfigCreate path argv mem = (some config, mem₁) ∧
        configCalls ops config mem₁ = (results, config', mem₂) ∧
        config'.value = configAfter (EmblaOs.processConfigCreate path argv) ops results ∧
        results.length = ops.length ∧
        results.countP (· ≠ 0) + n = ops.countP (fun op => op.Improper) + n' ∧
        mem₂.Holds (config'.blocks + r) n' ∧ (processConfigDestroy config' mem₂).Holds r n' := by
  rcases processConfigCreate_gets path argv h with ⟨mem₁, hx, h₁⟩ | ⟨config, mem₁, hx, hvalue, h₁⟩
  · exact .inl ⟨mem₁, hx, h₁⟩
  · obtain ⟨results, config', mem₂, n', hy, hafter, hlength, hcount, h₂⟩ := configCalls_spec ops h₁
    exact .inr ⟨config, mem₁, results, config', mem₂, n', hx, hy, hvalue ▸ hafter, hlength, hcount, h₂,
      processConfigDestroy_holds h₂⟩

/-- Nothing is allocated, and the block at `refused` is the one that is not handed out. -/
def freshMem (refused : Nat) : Mem := ⟨[], fun k => if k = refused then none else some k, 0, 0⟩

theorem freshMem_holds (refused : Nat) : (freshMem refused).Holds 0 0 := ⟨rfl, Multiset.nodup_zero, rfl, rfl⟩

/-- The fifth allocation, that of the working directory, is refused. -/
theorem processConfig_lifetime_refused :
    (∃ mem', processConfigCreate "/bin/sh" ["sh"] (freshMem 4) = (none, mem') ∧ mem'.Holds 0 1) ∨
      ∃ config mem₁ results config' mem₂ n',
        processConfigCreate "/bin/sh" ["sh"] (freshMem 4) = (some config, mem₁) ∧
        configCalls [.setWorkingDirectory "/", .setStdinFd (-1), .setUmask 18] config mem₁ =
          (results, config', mem₂) ∧
        config'.value = configAfter (EmblaOs.processConfigCreate "/bin/sh" ["sh"])
          [.setWorkingDirectory "/", .setStdinFd (-1), .setUmask 18] results ∧
        results.length = 3 ∧
        results.countP (· ≠ 0) + 0 =
          [ConfigOp.setWorkingDirectory "/", .setStdinFd (-1), .setUmask 18].countP (fun op => op.Improper) + n' ∧
        mem₂.Holds (config'.blocks + 0) n' ∧ (processConfigDestroy config' mem₂).Holds 0 n' :=
  processConfig_lifetime (freshMem_holds 4) "/bin/sh" ["sh"] [.setWorkingDirectory "/", .setStdinFd (-1), .setUmask 18]

end EmblaOs.Memory
