import Mathlib

/-!
# Devices and their names

The device structure of the HAL (`sys/alt_dev.h`), the lists of devices and of
file systems, and how `open` finds the one a name belongs to (`alt_find_dev.c`,
`alt_find_file.c`). A C string is the list of its characters before the
terminating zero.

* `altFindDev_eq`: the first device with exactly this name, up to 1000 characters.
* `altFindFile_eq`: the first file system whose mount point, without a slash at
  its end, is the name or is followed by a slash in it, up to 999 characters.
-/

namespace NiosvCodesign.Firmware.Files

/-- The values of `errno` that the HAL sets, and those of drivers. -/
inductive Errno
  | eacces
  | ebadfd
  | einval
  | emfile
  | enodev
  | enotty
  | driver (n : ℕ)
  deriving DecidableEq

/-- What a system call or a callback returns, with the error that it reports. -/
abbrev Ret := Except Errno ℕ

/-- `alt_fd` (sys/alt_dev.h:66-71); no device is a null pointer. -/
structure AltFd (δ : Type*) where
  dev : Option δ
  priv : BitVec 32
  fdFlags : BitVec 32

/-- `alt_dev` (sys/alt_dev.h:77-87) with the callbacks that the calls below use;
    `σ` is what drivers act on. A callback changes its descriptor in the field
    `priv` only, and only `open` does. -/
structure AltDev (δ σ : Type*) where
  name : List Char
  «open» : Option (AltFd δ → List Char → BitVec 32 → BitVec 32 → σ → (Ret × BitVec 32) × σ)
  close : Option (AltFd δ → σ → Ret × σ)
  read : Option (AltFd δ → ℕ → σ → Ret × σ)
  write : Option (AltFd δ → List (BitVec 8) → σ → Ret × σ)
  ioctl : Option (AltFd δ → BitVec 32 → σ → Ret × σ)

/-- `alt_dev_list` and `alt_fs_list`, from the first entry. The structure of a
    device has one link, so it is on one of the lists at most. -/
structure Devices (δ σ : Type*) where
  get : δ → AltDev δ σ
  devList : List δ
  fsList : List δ
  disjoint : devList.Disjoint fsList

/-- `MAX_STRING_LENGTH` (alt_find_dev.c:58, alt_find_file.c:58). -/
def maxStringLength : ℕ := 1000

/-- The inner loop of `alt_find_dev` with the test behind it (alt_find_dev.c:71-78),
    from a position that leaves `fuel` further turns. -/
def sameName : ℕ → List Char → List Char → Bool
  | fuel + 1, c :: name, d :: devName => if d ≠ c then false else sameName fuel name devName
  | _, name, devName => name.isEmpty && devName.isEmpty

/-- The inner loop of `alt_find_file` (alt_find_file.c:67-80). -/
def underMount : ℕ → List Char → List Char → Bool
  | 0, _, _ => false
  | _ + 1, ['/'], name => name.isEmpty || name.head? == some '/'
  | _ + 1, [], name => name.isEmpty || name.head? == some '/'
  | _ + 1, _ :: _, [] => false
  | fuel + 1, c :: fsName, d :: name => if c ≠ d then false else underMount fuel fsName name

variable {δ σ : Type*}

/-- `alt_find_dev` (alt_find_dev.c:54-86). -/
def altFindDev (devs : Devices δ σ) (name : List Char) : List δ → Option δ
  | [] => none
  | next :: list =>
    if sameName maxStringLength name (devs.get next).name then some next
    else altFindDev devs name list

/-- `alt_find_file` (alt_find_file.c:54-88). -/
def altFindFile (devs : Devices δ σ) (name : List Char) : List δ → Option δ
  | [] => none
  | next :: list =>
    if underMount maxStringLength (devs.get next).name name then some next
    else altFindFile devs name list

/-- The device or file system that `open` uses, and whether it is a file system
    (alt_open.c:118-124). -/
def Devices.lookup (devs : Devices δ σ) (file : List Char) : Option (δ × Bool) :=
  match altFindDev devs file devs.devList with
  | some dev => some (dev, false)
  | none => (altFindFile devs file devs.fsList).map fun dev => (dev, true)

/-! ## The devices of the system -/

inductive Device
  | devNull
  | jtagUart
  deriving DecidableEq

/-- `alt_dev_null` (alt_dev.c:76-101). -/
def altDevNull : AltDev Device σ where
  name := "/dev/null".toList
  «open» := none
  close := none
  read := none
  write := some fun _ ptr drivers => (.ok ptr.length, drivers)
  ioctl := none

/-- The device of the JTAG UART (altera_avalon_jtag_uart_fd.h:91-109), with its
    driver left open. -/
def jtagUart (close : AltFd Device → σ → Ret × σ) (read : AltFd Device → ℕ → σ → Ret × σ)
    (write : AltFd Device → List (BitVec 8) → σ → Ret × σ)
    (ioctl : AltFd Device → BitVec 32 → σ → Ret × σ) : AltDev Device σ where
  name := "/dev/jtag_uart".toList
  «open» := none
  close := some close
  read := some read
  write := some write
  ioctl := some ioctl

/-- The devices after `alt_sys_init`: `alt_dev_reg` puts a new one first
    (alt_sys_init.c:92-96, alt_dev.c:68, 151-154). -/
def niosvDevices (uart : AltDev Device σ) : Devices Device σ where
  get
    | .devNull => altDevNull
    | .jtagUart => uart
  devList := [.jtagUart, .devNull]
  fsList := []
  disjoint := List.disjoint_nil_right _

/-! ## Names of devices -/

theorem sameName_iff (fuel : ℕ) (name devName : List Char) :
    sameName fuel name devName = true ↔ name = devName ∧ name.length ≤ fuel := by
  induction fuel, name, devName using sameName.induct with
  | case1 fuel c name d devName hne =>
    have hcons : c :: name ≠ d :: devName := fun h => hne (List.cons.inj h).1.symm
    simp [sameName, hne, hcons]
  | case2 fuel c name d devName heq ih =>
    have heq : d = c := not_not.mp heq
    simp [sameName, heq, ih]
  | case3 fuel name devName hnot =>
    -- one of the strings has ended, or 1000 characters agree
    cases fuel with
    | zero =>
      simp only [sameName, Bool.and_eq_true, List.isEmpty_iff, Nat.le_zero, List.length_eq_zero_iff]
      constructor
      · rintro ⟨rfl, rfl⟩
        exact ⟨rfl, rfl⟩
      · rintro ⟨rfl, rfl⟩
        exact ⟨rfl, rfl⟩
    | succ fuel =>
      cases name with
      | nil => cases devName <;> simp [sameName]
      | cons c name =>
        cases devName with
        | nil => simp [sameName]
        | cons d devName => exact absurd rfl (hnot fuel c name d devName rfl rfl)

/-- `alt_find_dev` finds the first device with exactly the name; names of more
    than 1000 characters are never found. -/
theorem altFindDev_eq (devs : Devices δ σ) (name : List Char) (list : List δ) :
    altFindDev devs name list = list.find? fun dev =>
      decide ((devs.get dev).name = name ∧ name.length ≤ 1000) := by
  induction list with
  | nil => rfl
  | cons next list ih =>
    rw [altFindDev, List.find?_cons]
    by_cases h : (devs.get next).name = name ∧ name.length ≤ 1000
    · have hsame := (sameName_iff maxStringLength name _).mpr ⟨h.1.symm, h.2⟩
      rw [if_pos hsame, decide_eq_true h]
    · have hsame : ¬ sameName maxStringLength name (devs.get next).name = true := fun hs =>
        h ⟨((sameName_iff _ _ _).mp hs).1.symm, ((sameName_iff _ _ _).mp hs).2⟩
      simp only [hsame, h, decide_false, if_false, Bool.false_eq_true]
      exact ih

/-! ## Mount points -/

/-- The name of a file system without a slash at its end. -/
def stem : List Char → List Char
  | [] => []
  | ['/'] => []
  | c :: fsName => c :: stem fsName

/-- The name is the mount point, or goes on with a slash behind it. -/
def Under (fsName name : List Char) : Prop :=
  ∃ rest, name = stem fsName ++ rest ∧ (rest = [] ∨ rest.head? = some '/')

instance (fsName name : List Char) : Decidable (Under fsName name) :=
  decidable_of_iff (stem fsName <+: name ∧
      (name.drop (stem fsName).length = [] ∨ (name.drop (stem fsName).length).head? = some '/')) <| by
    constructor
    · rintro ⟨⟨rest, rfl⟩, hrest⟩
      rw [List.drop_left] at hrest
      exact ⟨rest, rfl, hrest⟩
    · rintro ⟨rest, rfl, hrest⟩
      refine ⟨List.prefix_append _ _, ?_⟩
      rwa [List.drop_left]

theorem stem_cons {c : Char} {fsName : List Char} (h : c :: fsName ≠ ['/']) :
    stem (c :: fsName) = c :: stem fsName := by
  rw [stem]
  intro hc hnil
  exact h (by rw [hc, hnil])

theorem under_iff_of_stem {fsName name : List Char} (h : stem fsName = []) :
    Under fsName name ↔ name = [] ∨ name.head? = some '/' := by
  simp [Under, h]

theorem under_cons_iff {c d : Char} {fsName name : List Char} (h : c :: fsName ≠ ['/']) :
    Under (c :: fsName) (d :: name) ↔ c = d ∧ Under fsName name := by
  rw [Under, stem_cons h]
  constructor
  · rintro ⟨rest, heq, hrest⟩
    rw [List.cons_append, List.cons.injEq] at heq
    exact ⟨heq.1.symm, rest, heq.2, hrest⟩
  · rintro ⟨rfl, rest, rfl, hrest⟩
    exact ⟨rest, rfl, hrest⟩

theorem not_under_nil {c : Char} {fsName : List Char} (h : c :: fsName ≠ ['/']) :
    ¬ Under (c :: fsName) [] := by
  rintro ⟨rest, heq, -⟩
  rw [stem_cons h] at heq
  exact List.cons_ne_nil _ _ heq.symm

theorem underMount_iff (fuel : ℕ) (fsName name : List Char) :
    underMount fuel fsName name = true ↔ Under fsName name ∧ (stem fsName).length < fuel := by
  induction fuel, fsName, name using underMount.induct with
  | case1 fsName name => simp [underMount]
  | case2 fuel name =>
    rw [under_iff_of_stem rfl]
    simp [underMount, stem]
  | case3 fuel name =>
    rw [under_iff_of_stem rfl]
    simp [underMount, stem]
  | case4 fuel c fsName hroot =>
    have hnot : c :: fsName ≠ ['/'] := fun h => hroot (List.cons.inj h).1 (List.cons.inj h).2
    simp [underMount, not_under_nil hnot]
  | case5 fuel c fsName d name hroot hne =>
    have hnot : c :: fsName ≠ ['/'] := fun h => hroot (List.cons.inj h).1 (List.cons.inj h).2
    simp [underMount, under_cons_iff hnot, hne]
  | case6 fuel c fsName d name hroot heq ih =>
    have hnot : c :: fsName ≠ ['/'] := fun h => hroot (List.cons.inj h).1 (List.cons.inj h).2
    obtain rfl : c = d := not_not.mp heq
    rw [under_cons_iff hnot, stem_cons hnot]
    simp [underMount, ih]

/-- `alt_find_file` finds the first file system whose mount point the name is
    under; mount points of 1000 characters and more are never found. -/
theorem altFindFile_eq (devs : Devices δ σ) (name : List Char) (list : List δ) :
    altFindFile devs name list = list.find? fun dev =>
      decide (Under (devs.get dev).name name ∧ (stem (devs.get dev).name).length < 1000) := by
  induction list with
  | nil => rfl
  | cons next list ih =>
    rw [altFindFile, List.find?_cons]
    by_cases h : Under (devs.get next).name name ∧ (stem (devs.get next).name).length < 1000
    · have hunder := (underMount_iff maxStringLength (devs.get next).name name).mpr h
      rw [if_pos hunder, decide_eq_true h]
    · have hunder : ¬ underMount maxStringLength (devs.get next).name name = true := fun hu =>
        h ((underMount_iff maxStringLength _ _).mp hu)
      simp only [hunder, h, decide_false, if_false, Bool.false_eq_true]
      exact ih

/-- The mount point ends at a slash of the name. -/
example : Under "/mnt/".toList "/mnt/a".toList ∧ ¬ Under "/mn".toList "/mnt/a".toList := by decide

end NiosvCodesign.Firmware.Files
