import NiosvCodesign.Lib.Transitions
import NiosvCodesign.Firmware.Devices

/-!
# The table of file descriptors

The system calls of the HAL on `alt_fd_list` (`HAL/src/alt_open.c`,
`alt_close.c`, `alt_ioctl.c`, `alt_fcntl.c`, `alt_read.c`, `alt_write.c`), and
`alt_io_redirect` that puts the standard streams on their devices before `main`.
A call is `none` where the code follows a null pointer or leaves the array.

* `altOpen_ok`, `altOpen_error`: what `open` does to the table.
* `effect_of_step`: the inversion of a call, on which the invariants do their case
  analysis.
-/

namespace NiosvCodesign.Firmware.Files

open Transitions

/-! ## The table -/

/-- `ALT_FD_EXCL` (priv/alt_file.h:130). -/
def altFdExcl : BitVec 32 := 0x80000000#32

/-- `ALT_FD_DEV` (priv/alt_file.h:131). -/
def altFdDev : BitVec 32 := 0x40000000#32

/-- `ALT_FD_FLAGS_MASK` (priv/alt_file.h:133). -/
def altFdFlagsMask : BitVec 32 := altFdExcl ||| altFdDev

/-- `O_RDONLY`, `O_WRONLY`, `O_ACCMODE`, `O_APPEND` and `O_NONBLOCK` of the C library. -/
def oRdonly : BitVec 32 := 0#32
def oWronly : BitVec 32 := 1#32
def oAccmode : BitVec 32 := 3#32
def oAppend : BitVec 32 := 0x8#32
def oNonblock : BitVec 32 := 0x4000#32

/-- `ALT_FCNTL_FLAGS_MASK` (alt_fcntl.c:44). -/
def altFcntlFlagsMask : BitVec 32 := oAppend ||| oNonblock

/-- `F_GETFL` and `F_SETFL` of the C library. -/
def fGetfl : BitVec 32 := 3#32
def fSetfl : BitVec 32 := 4#32

/-- `TIOCEXCL` and `TIOCNXCL` (sys/ioctl.h:64-65). -/
def tiocexcl : BitVec 32 := 0x740d#32
def tiocnxcl : BitVec 32 := 0x740e#32

/-- `alt_fd_list` with its `ALT_MAX_FD` entries (system.h:239), `alt_max_fd`, and
    what drivers act on. -/
structure State (δ σ : Type*) where
  fdList : Fin 32 → AltFd δ
  maxFd : ℤ
  drivers : σ

variable {δ σ : Type*}

/-- The table with entry `i` replaced. -/
def State.setFd (s : State δ σ) (i : Fin 32) (fd : AltFd δ) : State δ σ :=
  { s with fdList := Function.update s.fdList i fd }

/-- The table before `alt_sys_init` (alt_dev.c:118, 131-149). -/
def State.init (devNull : δ) (drivers : σ) : State δ σ where
  fdList i := if i.val ≤ 2 then ⟨some devNull, 0#32, 0#32⟩ else ⟨none, 0#32, 0#32⟩
  maxFd := -1
  drivers := drivers

/-- `alt_get_fd` (alt_get_fd.c:54-101); `none` is `-EMFILE`. -/
def altGetFd (s : State δ σ) (dev : δ) : Option (Fin 32) × State δ σ :=
  match (List.finRange 32).find? fun i => (s.fdList i).dev.isNone with
  | some i =>
    let s := s.setFd i { s.fdList i with dev := some dev }
    (some i, { s with maxFd := if s.maxFd < i then i else s.maxFd })
  | none => (none, s)

/-- `alt_release_fd` (alt_release_fd.c:44-51). -/
def altReleaseFd (s : State δ σ) (fd : Fin 32) : State δ σ :=
  if 2 < fd.val then s.setFd fd { s.fdList fd with fdFlags := 0#32, dev := none } else s

/-- `alt_file_locked` (alt_open.c:64-92). Its loop compares unsigned numbers, but
    `alt_max_fd` is not negative any more when it runs. -/
def altFileLocked [DecidableEq δ] (s : State δ σ) (fd : Fin 32) : Ret × State δ σ :=
  let s := s.setFd fd { s.fdList fd with fdFlags := (s.fdList fd).fdFlags ||| altFdDev }
  if ∃ i : Fin 32, (i : ℤ) ≤ s.maxFd ∧ (s.fdList i).dev = (s.fdList fd).dev ∧
      (s.fdList i).fdFlags &&& altFdExcl ≠ 0#32 ∧ i ≠ fd then (.error .eacces, s)
  else (.ok 0, s)

/-- `alt_fd_lock` (alt_fd_lock.c:54-75): the loop ends below `alt_max_fd`. -/
def altFdLock [DecidableEq δ] (s : State δ σ) (fd : Fin 32) : Ret × State δ σ :=
  if ∃ i : Fin 32, (i : ℤ) < s.maxFd ∧ i ≠ fd ∧ (s.fdList i).dev = (s.fdList fd).dev then
    (.error .eacces, s)
  else (.ok 0, s.setFd fd { s.fdList fd with fdFlags := (s.fdList fd).fdFlags ||| altFdExcl })

/-- `alt_fd_unlock` (alt_fd_unlock.c:52-56). -/
def altFdUnlock (s : State δ σ) (fd : Fin 32) : Ret × State δ σ :=
  (.ok 0, s.setFd fd { s.fdList fd with fdFlags := (s.fdList fd).fdFlags &&& ~~~altFdExcl })

/-! ## The system calls -/

/-- What `open` does with its new descriptor (alt_open.c:138-151). -/
def openAt [DecidableEq δ] (devs : Devices δ σ) (s : State δ σ) (dev : δ) (isafs : Bool)
    (index : Fin 32) (file : List Char) (flags mode : BitVec 32) : Ret × State δ σ :=
  let s := s.setFd index { s.fdList index with fdFlags := flags &&& ~~~altFdFlagsMask }
  let (status, s) := if isafs then (.ok 0, s) else altFileLocked s index
  match status, (devs.get dev).open with
  | .ok _, some callback =>
    let ((status, priv), drivers) := callback (s.fdList index) file flags mode s.drivers
    (status, { s.setFd index { s.fdList index with priv := priv } with drivers := drivers })
  | status, _ => (status, s)

/-- `open` (alt_open.c:105-171). -/
def altOpen [DecidableEq δ] (devs : Devices δ σ) (s : State δ σ) (file : List Char)
    (flags mode : BitVec 32) : Except Errno (Fin 32) × State δ σ :=
  match devs.lookup file with
  | none => (.error .enodev, s)
  | some (dev, isafs) =>
    match altGetFd s dev with
    | (none, s) => (.error .emfile, s)
    | (some index, s) =>
      match openAt devs s dev isafs index file flags mode with
      | (.error e, s) => (.error e, altReleaseFd s index)
      | (.ok _, s) => (.ok index, s)

/-- The entry for a number that is not negative. -/
def slot (file : ℤ) : Option (Fin 32) :=
  if h : file.toNat < 32 then some ⟨file.toNat, h⟩ else none

/-- `close` (alt_close.c:64-101). -/
def altClose (devs : Devices δ σ) (s : State δ σ) (fildes : ℤ) : Option (Ret × State δ σ) :=
  if fildes < 0 then some (.error .ebadfd, s)
  else (slot fildes).bind fun fd => (s.fdList fd).dev.map fun dev =>
    match (devs.get dev).close with
    | some callback =>
      let (rval, drivers) := callback (s.fdList fd) s.drivers
      (rval.map fun _ => 0, altReleaseFd { s with drivers := drivers } fd)
    | none => (.ok 0, altReleaseFd s fd)

/-- `ioctl` (alt_ioctl.c:106-168). -/
def altIoctl [DecidableEq δ] (devs : Devices δ σ) (s : State δ σ) (file : ℤ)
    (req : BitVec 32) : Option (Ret × State δ σ) :=
  if file < 0 then some (.error .ebadfd, s)
  else (slot file).bind fun fd =>
    if (s.fdList fd).fdFlags &&& altFdDev ≠ 0#32 ∧ req = tiocexcl then some (altFdLock s fd)
    else if (s.fdList fd).fdFlags &&& altFdDev ≠ 0#32 ∧ req = tiocnxcl then some (altFdUnlock s fd)
    else (s.fdList fd).dev.map fun dev =>
      match (devs.get dev).ioctl with
      | some callback =>
        let (rc, drivers) := callback (s.fdList fd) req s.drivers
        (rc, { s with drivers := drivers })
      | none => (.error .enotty, s)

/-- `fcntl` (alt_fcntl.c:66-101). -/
def altFcntl (s : State δ σ) (file : ℤ) (cmd arg : BitVec 32) : Option (Ret × State δ σ) :=
  if file < 0 then some (.error .ebadfd, s)
  else (slot file).map fun fd =>
    if cmd = fGetfl then (.ok ((s.fdList fd).fdFlags &&& ~~~altFdFlagsMask).toNat, s)
    else if cmd = fSetfl then
      (.ok 0, s.setFd fd { s.fdList fd with
        fdFlags := (s.fdList fd).fdFlags &&& ~~~altFcntlFlagsMask ||| arg &&& altFcntlFlagsMask })
    else (.error .einval, s)

/-- `read` (alt_read.c:82-123) of at most `len` characters. -/
def altRead (devs : Devices δ σ) (s : State δ σ) (file : ℤ) (len : ℕ) : Option (Ret × State δ σ) :=
  if file < 0 then some (.error .ebadfd, s)
  else (slot file).bind fun fd =>
    if (s.fdList fd).fdFlags &&& oAccmode = oWronly then some (.error .eacces, s)
    else (s.fdList fd).dev.map fun dev =>
      match (devs.get dev).read with
      | some callback =>
        let (rval, drivers) := callback (s.fdList fd) len s.drivers
        (rval, { s with drivers := drivers })
      | none => (.error .eacces, s)

/-- `write` (alt_write.c:92-136). -/
def altWrite (devs : Devices δ σ) (s : State δ σ) (file : ℤ) (ptr : List (BitVec 8)) :
    Option (Ret × State δ σ) :=
  if file < 0 then some (.error .ebadfd, s)
  else (slot file).bind fun fd =>
    if (s.fdList fd).fdFlags &&& oAccmode = oRdonly then some (.error .eacces, s)
    else (s.fdList fd).dev.map fun dev =>
      match (devs.get dev).write with
      | some callback =>
        let (rval, drivers) := callback (s.fdList fd) ptr s.drivers
        (rval, { s with drivers := drivers })
      | none => (.error .eacces, s)

/-- `alt_open_fd` (alt_io_redirect.c:78-92). -/
def altOpenFd [DecidableEq δ] (devs : Devices δ σ) (s : State δ σ) (fd : Fin 32)
    (name : List Char) (flags mode : BitVec 32) : State δ σ :=
  match altOpen devs s name flags mode with
  | (.ok old, s) => altReleaseFd (s.setFd fd (s.fdList old)) old
  | (.error _, s) => s

/-- `alt_io_redirect` (alt_io_redirect.c:105-134), without the stream buffers of the
    C library. -/
def altIoRedirect [DecidableEq δ] (devs : Devices δ σ) (s : State δ σ)
    (stdoutDev stdinDev stderrDev : List Char) : State δ σ :=
  let s := altOpenFd devs s 1 stdoutDev oWronly 0o777#32
  let s := altOpenFd devs s 0 stdinDev oRdonly 0o777#32
  altOpenFd devs s 2 stderrDev oWronly 0o777#32

/-- The calls of a program. -/
inductive Call
  | «open» (file : List Char) (flags mode : BitVec 32)
  | close (fildes : ℤ)
  | ioctl (file : ℤ) (req : BitVec 32)
  | fcntl (file : ℤ) (cmd arg : BitVec 32)
  | read (file : ℤ) (len : ℕ)
  | write (file : ℤ) (ptr : List (BitVec 8))

/-- A call with what it returns. -/
def call [DecidableEq δ] (devs : Devices δ σ) (s : State δ σ) : Call → Option (Ret × State δ σ)
  | .open file flags mode =>
    let (ret, s) := altOpen devs s file flags mode
    some (ret.map Fin.val, s)
  | .close fildes => altClose devs s fildes
  | .ioctl file req => altIoctl devs s file req
  | .fcntl file cmd arg => altFcntl s file cmd arg
  | .read file len => altRead devs s file len
  | .write file ptr => altWrite devs s file ptr

/-- The state after a call. -/
def step [DecidableEq δ] (devs : Devices δ σ) (s : State δ σ) (c : Call) : Option (State δ σ) :=
  (call devs s c).map Prod.snd

/-! ## Flags -/

/-- The descriptor belongs to a device and not to a file system. -/
def AltFd.isDev (fd : AltFd δ) : Bool := fd.fdFlags.getLsbD 30

/-- The descriptor is locked for exclusive access. -/
def AltFd.isExcl (fd : AltFd δ) : Bool := fd.fdFlags.getLsbD 31

theorem and_altFdDev_iff (x : BitVec 32) : x &&& altFdDev ≠ 0#32 ↔ x.getLsbD 30 = true := by
  have h : altFdDev = BitVec.twoPow 32 30 := rfl
  rw [h, BitVec.and_twoPow]
  split_ifs with hx
  · exact iff_of_true (by decide) hx
  · exact iff_of_false (fun hne => hne rfl) hx

theorem and_altFdExcl_iff (x : BitVec 32) : x &&& altFdExcl ≠ 0#32 ↔ x.getLsbD 31 = true := by
  have h : altFdExcl = BitVec.twoPow 32 31 := rfl
  rw [h, BitVec.and_twoPow]
  split_ifs with hx
  · exact iff_of_true (by decide) hx
  · exact iff_of_false (fun hne => hne rfl) hx

/-- The flags of a new descriptor. -/
def openFlags (flags : BitVec 32) (isafs : Bool) : BitVec 32 :=
  if isafs then flags &&& ~~~altFdFlagsMask else flags &&& ~~~altFdFlagsMask ||| altFdDev

theorem openFlags_excl (flags : BitVec 32) (isafs : Bool) :
    (openFlags flags isafs).getLsbD 31 = false := by
  cases isafs <;> simp [openFlags, altFdFlagsMask, altFdExcl, altFdDev]

theorem openFlags_dev (flags : BitVec 32) (isafs : Bool) :
    (openFlags flags isafs).getLsbD 30 = !isafs := by
  cases isafs <;> simp [openFlags, altFdFlagsMask, altFdExcl, altFdDev]

/-! ## What a call can do -/

section Calls

variable [DecidableEq δ] {devs : Devices δ σ} {s t : State δ σ} {file : List Char}
  {flags mode : BitVec 32} {k : Fin 32} {dev : δ} {isafs : Bool}

omit [DecidableEq δ] in
/-- `alt_get_fd` takes a free entry and nothing else. -/
theorem altGetFd_some (h : altGetFd s dev = (some k, t)) : (s.fdList k).dev = none ∧
    t = ⟨Function.update s.fdList k { s.fdList k with dev := some dev }, max s.maxFd k,
      s.drivers⟩ := by
  unfold altGetFd at h
  split at h
  · next i hi =>
    obtain ⟨hik, rfl⟩ := Prod.mk.inj h
    obtain rfl := Option.some.inj hik
    have hnone := List.find?_some hi
    refine ⟨Option.isNone_iff_eq_none.mp hnone, ?_⟩
    simp only [State.setFd, State.mk.injEq, true_and, and_true]
    split_ifs <;> omega
  · cases h

omit [DecidableEq δ] in
theorem altGetFd_none (h : altGetFd s dev = (none, t)) :
    t = s ∧ ∀ i, (s.fdList i).dev ≠ none := by
  unfold altGetFd at h
  split at h
  · cases h
  · next hnone =>
    refine ⟨(Prod.mk.inj h).2.symm, fun i hi => ?_⟩
    exact List.find?_eq_none.mp hnone i (List.mem_finRange i) (Option.isNone_iff_eq_none.mpr hi)

theorem altFileLocked_spec {ret : Ret} (h : altFileLocked s k = (ret, t)) :
    t = ⟨Function.update s.fdList k
      { s.fdList k with fdFlags := (s.fdList k).fdFlags ||| altFdDev }, s.maxFd, s.drivers⟩ ∧
    ∀ n, ret = .ok n → ∀ j : Fin 32, (j : ℤ) ≤ s.maxFd → j ≠ k →
      (s.fdList j).dev = (s.fdList k).dev → (s.fdList j).isExcl = false := by
  unfold altFileLocked at h
  simp only at h
  split_ifs at h with hlocked
  · obtain ⟨rfl, rfl⟩ := Prod.mk.inj h
    exact ⟨rfl, fun n hn => by cases hn⟩
  · obtain ⟨rfl, rfl⟩ := Prod.mk.inj h
    refine ⟨rfl, fun n _ j hj hne hdev => ?_⟩
    rw [Bool.eq_false_iff]
    intro hexcl
    refine hlocked ⟨j, hj, ?_, ?_, hne⟩
    · simpa [State.setFd, Function.update_of_ne hne] using hdev
    · simpa [State.setFd, Function.update_of_ne hne] using (and_altFdExcl_iff _).mpr hexcl

/-- What `open` does with its descriptor: it belongs to the device with the flags
    asked for, unless another descriptor has locked the device. -/
theorem openAt_spec {ret : Ret} (h : openAt devs s dev isafs k file flags mode = (ret, t)) :
    ∃ fd drivers, t = ⟨Function.update s.fdList k fd, s.maxFd, drivers⟩ ∧
      fd.dev = (s.fdList k).dev ∧ ∀ n, ret = .ok n → fd.fdFlags = openFlags flags isafs ∧
        (isafs = false → ∀ j : Fin 32, (j : ℤ) ≤ s.maxFd → j ≠ k →
          (s.fdList j).dev = (s.fdList k).dev → (s.fdList j).isExcl = false) := by
  unfold openAt at h
  simp only at h
  -- the status and the table before the callback
  generalize hstatus : (if isafs = true then ((Except.ok 0 : Ret), s.setFd k { s.fdList k with
      fdFlags := flags &&& ~~~altFdFlagsMask }) else altFileLocked (s.setFd k { s.fdList k with
      fdFlags := flags &&& ~~~altFdFlagsMask }) k) = locked at h
  obtain ⟨status, r⟩ := locked
  have hr : ∃ fd, r = ⟨Function.update s.fdList k fd, s.maxFd, s.drivers⟩ ∧
      fd.dev = (s.fdList k).dev ∧ ∀ n, status = .ok n → fd.fdFlags = openFlags flags isafs ∧
        (isafs = false → ∀ j : Fin 32, (j : ℤ) ≤ s.maxFd → j ≠ k →
          (s.fdList j).dev = (s.fdList k).dev → (s.fdList j).isExcl = false) := by
    cases isafs with
    | true =>
      obtain ⟨rfl, rfl⟩ := Prod.mk.inj hstatus
      exact ⟨_, rfl, rfl, fun n _ => ⟨rfl, fun hfs => by cases hfs⟩⟩
    | false =>
      obtain ⟨rfl, hfree⟩ := altFileLocked_spec hstatus
      refine ⟨{ s.fdList k with fdFlags := openFlags flags false }, ?_, rfl, fun n hn =>
        ⟨rfl, fun _ j hj hne hdev => ?_⟩⟩
      · simp [State.setFd, openFlags]
      · have hunlocked := hfree n hn j hj hne
        simp only [State.setFd, Function.update_of_ne hne, Function.update_self] at hunlocked
        exact hunlocked hdev
  obtain ⟨fd, rfl, hdev, hok⟩ := hr
  cases status with
  | error e =>
    obtain ⟨rfl, rfl⟩ := Prod.mk.inj h
    exact ⟨fd, s.drivers, rfl, hdev, fun n hn => by cases hn⟩
  | ok n =>
    cases hopen : (devs.get dev).open with
    | none =>
      rw [hopen] at h
      obtain ⟨rfl, rfl⟩ := Prod.mk.inj h
      exact ⟨fd, s.drivers, rfl, hdev, hok⟩
    | some callback =>
      rw [hopen] at h
      simp only [Function.update_self] at h
      generalize callback fd file flags mode s.drivers = answer at h
      obtain ⟨⟨status, priv⟩, drivers⟩ := answer
      obtain ⟨rfl, rfl⟩ := Prod.mk.inj h
      refine ⟨{ fd with priv := priv }, drivers, ?_, hdev, fun m _ => hok n rfl⟩
      simp [State.setFd]

/-- On a device that another descriptor has locked `open` is refused. -/
theorem openAt_locked {j : Fin 32} (hle : (j : ℤ) ≤ s.maxFd) (hne : j ≠ k)
    (hdev : (s.fdList j).dev = (s.fdList k).dev) (hexcl : (s.fdList j).isExcl = true) :
    (openAt devs s dev false k file flags mode).1 = .error .eacces := by
  have hlocked : (altFileLocked (s.setFd k { s.fdList k with
      fdFlags := flags &&& ~~~altFdFlagsMask }) k).1 = .error .eacces := by
    unfold altFileLocked
    rw [if_pos]
    refine ⟨j, hle, ?_, ?_, hne⟩
    · simpa [State.setFd, Function.update_of_ne hne] using hdev
    · simpa [State.setFd, Function.update_of_ne hne] using (and_altFdExcl_iff _).mpr hexcl
  obtain ⟨⟨status, r⟩, hr⟩ : ∃ answer, altFileLocked (s.setFd k { s.fdList k with
      fdFlags := flags &&& ~~~altFdFlagsMask }) k = answer := ⟨_, rfl⟩
  rw [hr] at hlocked
  obtain rfl : status = .error .eacces := hlocked
  unfold openAt
  simp only [Bool.false_eq_true, if_false, hr]

/-- An `open` that succeeds takes a free descriptor for the device that the name
    belongs to, which no other descriptor has locked. -/
theorem altOpen_ok (h : altOpen devs s file flags mode = (.ok k, t)) :
    ∃ dev isafs fd drivers, devs.lookup file = some (dev, isafs) ∧ (s.fdList k).dev = none ∧
      t = ⟨Function.update s.fdList k fd, max s.maxFd k, drivers⟩ ∧ fd.dev = some dev ∧
      fd.fdFlags = openFlags flags isafs ∧
      (isafs = false → ∀ j : Fin 32, (j : ℤ) ≤ max s.maxFd k → j ≠ k →
        (s.fdList j).dev = some dev → (s.fdList j).isExcl = false) := by
  unfold altOpen at h
  split at h
  · cases h
  · next dev isafs hlookup =>
    split at h
    · cases h
    · next index r hget =>
      obtain ⟨hfree, rfl⟩ := altGetFd_some hget
      split at h
      · cases h
      · next n u hat =>
        obtain ⟨hindex, rfl⟩ := Prod.mk.inj h
        obtain rfl := Except.ok.inj hindex
        obtain ⟨fd, drivers, rfl, hdev, hok⟩ := openAt_spec hat
        obtain ⟨hflags, hunlocked⟩ := hok n rfl
        simp only [Function.update_self] at hdev hunlocked
        refine ⟨dev, isafs, fd, drivers, hlookup, hfree, ?_, hdev, hflags, ?_⟩
        · rw [Function.update_idem]
        · intro hfs j hj hne hsame
          have hexcl := hunlocked hfs j hj hne
          rw [Function.update_of_ne hne] at hexcl
          exact hexcl hsame

/-- An `open` that fails leaves the descriptors in use as they are. -/
theorem altOpen_error {e : Errno} (hstd : ∀ i : Fin 32, i.val ≤ 2 → (s.fdList i).dev ≠ none)
    (h : altOpen devs s file flags mode = (.error e, t)) :
    (∃ drivers, t = { s with drivers := drivers }) ∨
    ∃ i priv drivers, 2 < i.val ∧ (s.fdList i).dev = none ∧
      t = ⟨Function.update s.fdList i ⟨none, priv, 0#32⟩, max s.maxFd i, drivers⟩ := by
  unfold altOpen at h
  split at h
  · obtain ⟨-, rfl⟩ := Prod.mk.inj h
    exact Or.inl ⟨s.drivers, rfl⟩
  · split at h
    · next hget =>
      obtain ⟨-, rfl⟩ := Prod.mk.inj h
      rw [(altGetFd_none hget).1]
      exact Or.inl ⟨s.drivers, rfl⟩
    · next index r hget =>
      obtain ⟨hfree, rfl⟩ := altGetFd_some hget
      have hindex : 2 < index.val := by
        by_contra hle
        exact hstd index (by omega) hfree
      split at h
      · next hat =>
        obtain ⟨fd, drivers, rfl, -, -⟩ := openAt_spec hat
        obtain ⟨-, rfl⟩ := Prod.mk.inj h
        refine Or.inr ⟨index, fd.priv, drivers, hindex, hfree, ?_⟩
        simp [altReleaseFd, hindex, State.setFd]
      · cases h

/-- It takes none. -/
theorem altOpen_error_dev {e : Errno} (hstd : ∀ i : Fin 32, i.val ≤ 2 → (s.fdList i).dev ≠ none)
    (h : altOpen devs s file flags mode = (.error e, t)) (i : Fin 32) :
    (t.fdList i).dev = (s.fdList i).dev := by
  rcases altOpen_error hstd h with ⟨drivers, rfl⟩ | ⟨j, priv, drivers, -, hfree, rfl⟩
  · rfl
  · by_cases hij : i = j
    · subst hij
      simp only [Function.update_self, hfree]
    · simp only [Function.update_of_ne hij]

/-- An `open` of a locked device fails: for the lock if there is a free descriptor
    to look with, else for want of one. -/
theorem altOpen_locked {j : Fin 32} (hlookup : devs.lookup file = some (dev, false))
    (hle : (j : ℤ) ≤ s.maxFd) (hdev : (s.fdList j).dev = some dev)
    (hexcl : (s.fdList j).isExcl = true) :
    ((∃ i, (s.fdList i).dev = none) → (altOpen devs s file flags mode).1 = .error .eacces) ∧
    ((∀ i, (s.fdList i).dev ≠ none) → (altOpen devs s file flags mode).1 = .error .emfile) := by
  obtain ⟨⟨found, r⟩, hget⟩ : ∃ answer, altGetFd s dev = answer := ⟨_, rfl⟩
  cases found with
  | none =>
    obtain ⟨-, hfull⟩ := altGetFd_none hget
    refine ⟨fun ⟨i, hfree⟩ => absurd hfree (hfull i), fun _ => ?_⟩
    simp only [altOpen, hlookup, hget]
  | some i =>
    obtain ⟨hfree, rfl⟩ := altGetFd_some hget
    refine ⟨fun _ => ?_, fun hfull => absurd hfree (hfull i)⟩
    have hji : j ≠ i := by
      rintro rfl
      exact Option.some_ne_none dev (hdev.symm.trans hfree)
    have hrefused : (openAt devs ⟨Function.update s.fdList i { s.fdList i with dev := some dev },
        max s.maxFd i, s.drivers⟩ dev false i file flags mode).1 = .error .eacces := by
      refine openAt_locked (hle.trans (le_max_left _ _)) hji ?_ ?_
      · simp only [Function.update_of_ne hji, Function.update_self, hdev]
      · simpa only [Function.update_of_ne hji] using hexcl
    obtain ⟨⟨status, u⟩, hat⟩ : ∃ answer, openAt devs ⟨Function.update s.fdList i
      { s.fdList i with dev := some dev }, max s.maxFd i, s.drivers⟩ dev false i file flags mode =
        answer := ⟨_, rfl⟩
    rw [hat] at hrefused
    obtain rfl : status = .error .eacces := hrefused
    simp only [altOpen, hlookup, hget, hat]

omit [DecidableEq δ] in
/-- What a call can do to the table: nothing, or a change of one entry. -/
inductive Effect (devs : Devices δ σ) (s : State δ σ) : Call → State δ σ → Prop
  | quiet (c : Call) (drivers : σ) : Effect devs s c { s with drivers := drivers }
  | opened (file : List Char) (flags mode : BitVec 32) (k : Fin 32) (dev : δ) (isafs : Bool)
      (fd : AltFd δ) (drivers : σ) (hlookup : devs.lookup file = some (dev, isafs))
      (hk : 2 < k.val) (hfree : (s.fdList k).dev = none) (hdev : fd.dev = some dev)
      (hflags : fd.fdFlags = openFlags flags isafs)
      (hunlocked : isafs = false → ∀ j : Fin 32, (j : ℤ) ≤ max s.maxFd k → j ≠ k →
        (s.fdList j).dev = some dev → (s.fdList j).isExcl = false) :
      Effect devs s (.open file flags mode)
        ⟨Function.update s.fdList k fd, max s.maxFd k, drivers⟩
  | refused (file : List Char) (flags mode : BitVec 32) (k : Fin 32) (priv : BitVec 32)
      (drivers : σ) (hk : 2 < k.val) (hfree : (s.fdList k).dev = none) :
      Effect devs s (.open file flags mode)
        ⟨Function.update s.fdList k ⟨none, priv, 0#32⟩, max s.maxFd k, drivers⟩
  | closed (k : Fin 32) (priv : BitVec 32) (drivers : σ) (hk : 2 < k.val) :
      Effect devs s (.close k)
        { s with fdList := Function.update s.fdList k ⟨none, priv, 0#32⟩, drivers := drivers }
  | locked (k : Fin 32) (hdev : (s.fdList k).isDev = true)
      (hothers : ∀ i : Fin 32, (i : ℤ) < s.maxFd → i ≠ k →
        (s.fdList i).dev ≠ (s.fdList k).dev) :
      Effect devs s (.ioctl k tiocexcl)
        (s.setFd k { s.fdList k with fdFlags := (s.fdList k).fdFlags ||| altFdExcl })
  | unlocked (k : Fin 32) :
      Effect devs s (.ioctl k tiocnxcl)
        (s.setFd k { s.fdList k with fdFlags := (s.fdList k).fdFlags &&& ~~~altFdExcl })
  | changed (k : Fin 32) (arg : BitVec 32) :
      Effect devs s (.fcntl k fSetfl arg)
        (s.setFd k { s.fdList k with
          fdFlags := (s.fdList k).fdFlags &&& ~~~altFcntlFlagsMask ||| arg &&& altFcntlFlagsMask })

omit [DecidableEq δ] in
theorem slot_eq_some {x : ℤ} (hx : ¬ x < 0) (h : slot x = some k) : x = k := by
  unfold slot at h
  split_ifs at h with hlt
  obtain rfl := Option.some.inj h
  show x = (x.toNat : ℤ)
  omega

omit [DecidableEq δ] in
theorem Effect.of_same {c : Call} (hlist : t.fdList = s.fdList) (hmax : t.maxFd = s.maxFd) :
    Effect devs s c t := by
  have heq : t = { s with drivers := t.drivers } := by rw [← hlist, ← hmax]
  rw [heq]
  exact .quiet c t.drivers

omit [DecidableEq δ] in
theorem effect_of_close {x : ℤ} {ret : Ret} (h : altClose devs s x = some (ret, t)) :
    Effect devs s (.close x) t := by
  unfold altClose at h
  split_ifs at h with hneg
  · obtain ⟨-, rfl⟩ := Prod.mk.inj (Option.some.inj h)
    exact .of_same rfl rfl
  · obtain ⟨k, hk, h⟩ := Option.bind_eq_some_iff.mp h
    obtain ⟨dev, hdev, h⟩ := Option.map_eq_some_iff.mp h
    rw [slot_eq_some hneg hk]
    have hclosed : ∃ drivers, t = altReleaseFd { s with drivers := drivers } k := by
      cases hclose : (devs.get dev).close with
      | none =>
        rw [hclose] at h
        exact ⟨s.drivers, (Prod.mk.inj h).2.symm⟩
      | some callback =>
        rw [hclose] at h
        exact ⟨_, (Prod.mk.inj h).2.symm⟩
    obtain ⟨drivers, rfl⟩ := hclosed
    unfold altReleaseFd
    split_ifs with hstd
    · exact .closed k (s.fdList k).priv drivers hstd
    · exact .quiet _ drivers

theorem effect_of_ioctl {x : ℤ} {req : BitVec 32} {ret : Ret}
    (h : altIoctl devs s x req = some (ret, t)) : Effect devs s (.ioctl x req) t := by
  unfold altIoctl at h
  split_ifs at h with hneg
  · obtain ⟨-, rfl⟩ := Prod.mk.inj (Option.some.inj h)
    exact .of_same rfl rfl
  · obtain ⟨k, hk, hbody⟩ := Option.bind_eq_some_iff.mp h
    rw [slot_eq_some hneg hk]
    split_ifs at hbody with hlock hunlock
    · -- the request for exclusive access
      obtain ⟨hdev, rfl⟩ := hlock
      unfold altFdLock at hbody
      split_ifs at hbody with hothers
      · obtain ⟨-, rfl⟩ := Prod.mk.inj (Option.some.inj hbody)
        exact .of_same rfl rfl
      · obtain ⟨-, rfl⟩ := Prod.mk.inj (Option.some.inj hbody)
        refine .locked k ((and_altFdDev_iff _).mp hdev) fun i hi hne hsame => ?_
        exact hothers ⟨i, hi, hne, hsame⟩
    · obtain ⟨-, rfl⟩ := hunlock
      obtain ⟨-, rfl⟩ := Prod.mk.inj (Option.some.inj hbody)
      exact .unlocked k
    · obtain ⟨dev, -, hcall⟩ := Option.map_eq_some_iff.mp hbody
      split at hcall
      · obtain ⟨-, rfl⟩ := Prod.mk.inj hcall
        exact .quiet _ _
      · obtain ⟨-, rfl⟩ := Prod.mk.inj hcall
        exact .of_same rfl rfl

omit [DecidableEq δ] in
theorem effect_of_fcntl {x : ℤ} {cmd arg : BitVec 32} {ret : Ret}
    (h : altFcntl s x cmd arg = some (ret, t)) : Effect devs s (.fcntl x cmd arg) t := by
  by_cases hneg : x < 0
  · rw [altFcntl, if_pos hneg] at h
    obtain ⟨-, rfl⟩ := Prod.mk.inj (Option.some.inj h)
    exact .of_same rfl rfl
  · rw [altFcntl, if_neg hneg] at h
    obtain ⟨k, hk, hbody⟩ := Option.map_eq_some_iff.mp h
    rw [slot_eq_some hneg hk]
    split_ifs at hbody with hget hset
    · obtain ⟨-, rfl⟩ := Prod.mk.inj hbody
      exact .of_same rfl rfl
    · obtain ⟨-, rfl⟩ := Prod.mk.inj hbody
      rw [hset]
      exact .changed k arg
    · obtain ⟨-, rfl⟩ := Prod.mk.inj hbody
      exact .of_same rfl rfl

omit [DecidableEq δ] in
/-- `read` and `write` only call the driver. -/
theorem same_of_dispatch {x : ℤ} {e e' : Errno} {ret : Ret} {p : Fin 32 → Prop} [DecidablePred p]
    {g : Fin 32 → δ → Ret × State δ σ}
    (hg : ∀ k dev, (g k dev).2.fdList = s.fdList ∧ (g k dev).2.maxFd = s.maxFd)
    (h : (if x < 0 then some (.error e, s) else (slot x).bind fun k =>
      if p k then some (.error e', s) else (s.fdList k).dev.map (g k)) = some (ret, t)) :
    t.fdList = s.fdList ∧ t.maxFd = s.maxFd := by
  split_ifs at h with hneg
  · obtain ⟨-, rfl⟩ := Prod.mk.inj (Option.some.inj h)
    exact ⟨rfl, rfl⟩
  · obtain ⟨k, -, hbody⟩ := Option.bind_eq_some_iff.mp h
    split_ifs at hbody with hmode
    · obtain ⟨-, rfl⟩ := Prod.mk.inj (Option.some.inj hbody)
      exact ⟨rfl, rfl⟩
    · obtain ⟨dev, -, hcall⟩ := Option.map_eq_some_iff.mp hbody
      have hsame := hg k dev
      rw [hcall] at hsame
      exact hsame

omit [DecidableEq δ] in
theorem effect_of_read {x : ℤ} {len : ℕ} {ret : Ret} (h : altRead devs s x len = some (ret, t)) :
    Effect devs s (.read x len) t := by
  have hsame := same_of_dispatch (fun k dev => by split <;> exact ⟨rfl, rfl⟩) h
  exact .of_same hsame.1 hsame.2

omit [DecidableEq δ] in
theorem effect_of_write {x : ℤ} {ptr : List (BitVec 8)} {ret : Ret}
    (h : altWrite devs s x ptr = some (ret, t)) : Effect devs s (.write x ptr) t := by
  have hsame := same_of_dispatch (fun k dev => by split <;> exact ⟨rfl, rfl⟩) h
  exact .of_same hsame.1 hsame.2

theorem call_open {status : Except Errno (Fin 32)}
    (h : altOpen devs s file flags mode = (status, t)) :
    call devs s (.open file flags mode) = some (status.map Fin.val, t) := by
  simp only [call, h]

/-- The inversion of a step. -/
theorem effect_of_step {c : Call} (hstd : ∀ i : Fin 32, i.val ≤ 2 → (s.fdList i).dev ≠ none)
    (h : step devs s c = some t) : Effect devs s c t := by
  obtain ⟨⟨ret, r⟩, hcall, rfl⟩ := Option.map_eq_some_iff.mp h
  cases c with
  | «open» file flags mode =>
    obtain ⟨⟨status, u⟩, hopen⟩ : ∃ answer, altOpen devs s file flags mode = answer := ⟨_, rfl⟩
    rw [call_open hopen] at hcall
    obtain ⟨-, rfl⟩ := Prod.mk.inj (Option.some.inj hcall)
    cases status with
    | error e =>
      rcases altOpen_error hstd hopen with ⟨drivers, rfl⟩ | ⟨k, priv, drivers, hk, hfree, rfl⟩
      · exact .quiet _ drivers
      · exact .refused file flags mode k priv drivers hk hfree
    | ok k =>
      obtain ⟨dev, isafs, fd, drivers, hlookup, hfree, rfl, hdev, hflags, hunlocked⟩ :=
        altOpen_ok hopen
      have hk : 2 < k.val := by
        by_contra hle
        exact hstd k (by omega) hfree
      exact .opened file flags mode k dev isafs fd drivers hlookup hk hfree hdev hflags hunlocked
  | close x => exact effect_of_close hcall
  | ioctl x req => exact effect_of_ioctl hcall
  | fcntl x cmd arg => exact effect_of_fcntl hcall
  | read x len => exact effect_of_read hcall
  | write x ptr => exact effect_of_write hcall

end Calls

end NiosvCodesign.Firmware.Files
