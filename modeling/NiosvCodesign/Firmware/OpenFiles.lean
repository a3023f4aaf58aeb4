import NiosvCodesign.Firmware.FileDescriptors

/-!
# Open files over whole runs

What holds of the table of file descriptors in every run of calls after the start
of the system.

* `exclusive_iff`: when a lock keeps its promise. The loop of `alt_fd_lock` ends
  below `alt_max_fd`, so the descriptor with this number can be overlooked.
* `Effect.entry`: what a call can do to the entry of an open descriptor.
* `descriptor_held`, `locked_out`: so this is what the holder of a descriptor and
  of a lock can rely on.
* `boot_streams`, `stdout_write`: the standard streams stay on their device, and
  `write` to `stdout` blocks.
-/

namespace NiosvCodesign.Firmware.Files

open Transitions

variable {δ σ : Type*} {devs : Devices δ σ} {s t : State δ σ} {c : Call} {k : Fin 32}

/-! ## The invariant of the table -/

/-- What holds of the table in every state: the standard streams are always open,
    `alt_max_fd` bounds the others, and only descriptors of devices are locked. -/
structure Inv (devs : Devices δ σ) (s : State δ σ) : Prop where
  std : ∀ i : Fin 32, i.val ≤ 2 → (s.fdList i).dev ≠ none
  below : ∀ i : Fin 32, 2 < i.val → (s.fdList i).dev ≠ none → (i : ℤ) ≤ s.maxFd
  dev : ∀ i : Fin 32, (s.fdList i).isDev = true →
    2 < s.maxFd ∧ (i : ℤ) ≤ s.maxFd ∧ ∃ d ∈ devs.devList, (s.fdList i).dev = some d
  excl : ∀ i : Fin 32, (s.fdList i).isExcl = true → (s.fdList i).isDev = true

theorem inv_init (devs : Devices δ σ) (devNull : δ) (drivers : σ) :
    Inv devs (State.init devNull drivers) where
  std i hi := by simp [State.init, hi]
  below i hi hopen := by
    have hstd : ¬ i.val ≤ 2 := by omega
    simp [State.init, hstd] at hopen
  dev i hdev := by
    simp only [State.init, AltFd.isDev] at hdev
    split_ifs at hdev <;> simp at hdev
  excl i hexcl := by
    simp only [State.init, AltFd.isExcl] at hexcl
    split_ifs at hexcl <;> simp at hexcl

/-- The invariant survives the change of one entry that meets it. -/
theorem Inv.update (h : Inv devs s) {fd : AltFd δ} {top : ℤ} {drivers : σ} (htop : s.maxFd ≤ top)
    (hstd : k.val ≤ 2 → fd.dev ≠ none) (hbelow : 2 < k.val → fd.dev ≠ none → (k : ℤ) ≤ top)
    (hdev : fd.isDev = true → 2 < top ∧ (k : ℤ) ≤ top ∧ ∃ d ∈ devs.devList, fd.dev = some d)
    (hexcl : fd.isExcl = true → fd.isDev = true) :
    Inv devs ⟨Function.update s.fdList k fd, top, drivers⟩ where
  std i hi := by
    by_cases hik : i = k
    · subst hik
      simpa only [Function.update_self] using hstd hi
    · simpa only [Function.update_of_ne hik] using h.std i hi
  below i hi hopen := by
    by_cases hik : i = k
    · subst hik
      simp only [Function.update_self] at hopen
      exact hbelow hi hopen
    · simp only [Function.update_of_ne hik] at hopen
      exact (h.below i hi hopen).trans htop
  dev i hd := by
    by_cases hik : i = k
    · subst hik
      simp only [Function.update_self] at hd ⊢
      exact hdev hd
    · simp only [Function.update_of_ne hik] at hd ⊢
      obtain ⟨hmax, hle, hmem⟩ := h.dev i hd
      exact ⟨hmax.trans_le htop, hle.trans htop, hmem⟩
  excl i he := by
    by_cases hik : i = k
    · subst hik
      simp only [Function.update_self] at he ⊢
      exact hexcl he
    · simp only [Function.update_of_ne hik] at he ⊢
      exact h.excl i he

theorem lookup_dev {file : List Char} {d : δ} (h : devs.lookup file = some (d, false)) :
    d ∈ devs.devList := by
  unfold Devices.lookup at h
  split at h
  · next dev hfind =>
    obtain ⟨rfl, -⟩ := Prod.mk.inj (Option.some.inj h)
    rw [altFindDev_eq] at hfind
    exact List.mem_of_find?_eq_some hfind
  · obtain ⟨dev, -, heq⟩ := Option.map_eq_some_iff.mp h
    exact absurd (Prod.mk.inj heq).2 Bool.noConfusion

theorem lookup_fs {file : List Char} {d : δ} (h : devs.lookup file = some (d, true)) :
    d ∈ devs.fsList := by
  unfold Devices.lookup at h
  split at h
  · exact absurd (Prod.mk.inj (Option.some.inj h)).2 Bool.noConfusion
  · obtain ⟨dev, hfind, heq⟩ := Option.map_eq_some_iff.mp h
    obtain ⟨rfl, -⟩ := Prod.mk.inj heq
    rw [altFindFile_eq] at hfind
    exact List.mem_of_find?_eq_some hfind

theorem AltFd.isDev_lock (fd : AltFd δ) :
    (AltFd.mk fd.dev fd.priv (fd.fdFlags ||| altFdExcl)).isDev = fd.isDev := by
  simp [AltFd.isDev, altFdExcl]

theorem AltFd.isDev_unlock (fd : AltFd δ) :
    (AltFd.mk fd.dev fd.priv (fd.fdFlags &&& ~~~altFdExcl)).isDev = fd.isDev := by
  simp [AltFd.isDev, altFdExcl]

theorem AltFd.isExcl_unlock (fd : AltFd δ) :
    (AltFd.mk fd.dev fd.priv (fd.fdFlags &&& ~~~altFdExcl)).isExcl = false := by
  simp [AltFd.isExcl, altFdExcl]

theorem AltFd.isDev_fcntl (fd : AltFd δ) (arg : BitVec 32) :
    (AltFd.mk fd.dev fd.priv
      (fd.fdFlags &&& ~~~altFcntlFlagsMask ||| arg &&& altFcntlFlagsMask)).isDev = fd.isDev := by
  simp [AltFd.isDev, altFcntlFlagsMask, oAppend, oNonblock]

theorem AltFd.isExcl_fcntl (fd : AltFd δ) (arg : BitVec 32) :
    (AltFd.mk fd.dev fd.priv
      (fd.fdFlags &&& ~~~altFcntlFlagsMask ||| arg &&& altFcntlFlagsMask)).isExcl = fd.isExcl := by
  simp [AltFd.isExcl, altFcntlFlagsMask, oAppend, oNonblock]

theorem Inv.effect (h : Inv devs s) (heff : Effect devs s c t) : Inv devs t := by
  cases heff with
  | quiet _ drivers => exact ⟨h.std, h.below, h.dev, h.excl⟩
  | opened _ _ _ k dev isafs fd drivers hlookup hk hfree hdev hflags hunlocked =>
    refine h.update (le_max_left _ _) (fun hle => ?_) (fun _ _ => le_max_right _ _) (fun hd => ?_)
      (fun he => ?_)
    · omega
    · rw [AltFd.isDev, hflags, openFlags_dev] at hd
      obtain rfl : isafs = false := by simpa using hd
      exact ⟨by omega, le_max_right _ _, dev, lookup_dev hlookup, hdev⟩
    · rw [AltFd.isExcl, hflags, openFlags_excl] at he
      cases he
  | refused _ _ _ k priv drivers hk hfree =>
    refine h.update (le_max_left _ _) (fun hle => ?_) (fun _ hopen => absurd rfl hopen)
      (fun hd => ?_) (fun he => ?_)
    · omega
    · simp [AltFd.isDev] at hd
    · simp [AltFd.isExcl] at he
  | closed k priv drivers hk =>
    refine h.update le_rfl (fun hle => ?_) (fun _ hopen => absurd rfl hopen) (fun hd => ?_)
      (fun he => ?_)
    · omega
    · simp [AltFd.isDev] at hd
    · simp [AltFd.isExcl] at he
  | locked k hdev hothers =>
    refine h.update le_rfl (h.std k) (h.below k) (fun _ => h.dev k hdev) (fun _ => ?_)
    rw [AltFd.isDev_lock]
    exact hdev
  | unlocked k =>
    refine h.update le_rfl (h.std k) (h.below k) (fun hd => ?_) (fun he => ?_)
    · rw [AltFd.isDev_unlock] at hd
      exact h.dev k hd
    · rw [AltFd.isExcl_unlock] at he
      cases he
  | changed k arg =>
    refine h.update le_rfl (h.std k) (h.below k) (fun hd => ?_) (fun he => ?_)
    · rw [AltFd.isDev_fcntl] at hd
      exact h.dev k hd
    · rw [AltFd.isExcl_fcntl] at he
      rw [AltFd.isDev_fcntl]
      exact h.excl k he

theorem Inv.step [DecidableEq δ] (h : Inv devs s) (hst : step devs s c = some t) : Inv devs t :=
  h.effect (effect_of_step h.std hst)

/-! ## Exclusive access -/

/-- A locked descriptor is the only one of its device. -/
def Exclusive (s : State δ σ) : Prop :=
  ∀ i j : Fin 32, i ≠ j → (s.fdList i).isExcl = true → (s.fdList j).dev ≠ (s.fdList i).dev

/-- No lock is asked for to which the descriptor `alt_max_fd`, and no other one,
    stands in the way. -/
def GrantOk (s : State δ σ) (c : Call) : Prop :=
  ∀ fd top : Fin 32, c = .ioctl fd tiocexcl → (top : ℤ) = s.maxFd → top ≠ fd →
    (s.fdList fd).isDev = true →
    (∀ i : Fin 32, (i : ℤ) < s.maxFd → i ≠ fd → (s.fdList i).dev ≠ (s.fdList fd).dev) →
      (s.fdList top).dev ≠ (s.fdList fd).dev

theorem Exclusive.update (h : Exclusive s) {fd : AltFd δ} {top : ℤ} {drivers : σ}
    (hown : fd.isExcl = true → ∀ j, j ≠ k → (s.fdList j).dev ≠ fd.dev)
    (hothers : ∀ i, i ≠ k → (s.fdList i).isExcl = true → fd.dev ≠ (s.fdList i).dev) :
    Exclusive ⟨Function.update s.fdList k fd, top, drivers⟩ := by
  intro i j hij hexcl
  by_cases hik : i = k
  · subst hik
    simp only [Function.update_self, Function.update_of_ne hij.symm] at hexcl ⊢
    exact hown hexcl j hij.symm
  · simp only [Function.update_of_ne hik] at hexcl ⊢
    by_cases hjk : j = k
    · subst hjk
      simpa only [Function.update_self] using hothers i hik hexcl
    · simpa only [Function.update_of_ne hjk] using h i j hij hexcl

/-- Under the invariant the loop of `alt_fd_lock` with the descriptor `alt_max_fd`
    has seen all that are open. -/
theorem Inv.only (h : Inv devs s) (hdev : (s.fdList k).isDev = true)
    (hlower : ∀ i : Fin 32, (i : ℤ) < s.maxFd → i ≠ k → (s.fdList i).dev ≠ (s.fdList k).dev)
    (htop : ∀ top : Fin 32, (top : ℤ) = s.maxFd → top ≠ k → (s.fdList top).dev ≠ (s.fdList k).dev)
    (j : Fin 32) (hj : j ≠ k) : (s.fdList j).dev ≠ (s.fdList k).dev := by
  intro hsame
  obtain ⟨hmax, -, d, -, hd⟩ := h.dev k hdev
  rcases lt_trichotomy (j : ℤ) s.maxFd with hlt | heq | hgt
  · exact hlower j hlt hj hsame
  · exact htop j heq hj hsame
  · by_cases hstd : 2 < j.val
    · have hopen : (s.fdList j).dev ≠ none := by
        rw [hsame, hd]
        exact Option.some_ne_none d
      exact absurd (h.below j hstd hopen) (by omega)
    · omega

theorem Exclusive.effect (hx : Exclusive s) (hi : Inv devs s) (hok : GrantOk s c)
    (heff : Effect devs s c t) : Exclusive t := by
  cases heff with
  | quiet _ drivers => exact hx
  | opened _ _ _ k dev isafs fd drivers hlookup hk hfree hdev hflags hunlocked =>
    refine hx.update (fun he => ?_) (fun i hik hexcl hsame => ?_)
    · rw [AltFd.isExcl, hflags, openFlags_excl] at he
      cases he
    · obtain ⟨-, hle, d, hmem, hd⟩ := hi.dev i (hi.excl i hexcl)
      have hsame : (s.fdList i).dev = some dev := hsame.symm.trans hdev
      cases isafs with
      | false =>
        have hfree := hunlocked rfl i (hle.trans (le_max_left _ _)) hik hsame
        exact Bool.noConfusion (hexcl.symm.trans hfree)
      | true =>
        -- the locked descriptor belongs to a device, the new one to a file system
        obtain rfl := Option.some.inj (hd.symm.trans hsame)
        exact devs.disjoint hmem (lookup_fs hlookup)
  | refused _ _ _ k priv drivers hk hfree =>
    refine hx.update (fun he => ?_) (fun i hik hexcl hsame => ?_)
    · simp [AltFd.isExcl] at he
    · obtain ⟨-, -, d, -, hd⟩ := hi.dev i (hi.excl i hexcl)
      exact Option.some_ne_none d (hd.symm.trans hsame.symm)
  | closed k priv drivers hk =>
    refine hx.update (fun he => ?_) (fun i hik hexcl hsame => ?_)
    · simp [AltFd.isExcl] at he
    · obtain ⟨-, -, d, -, hd⟩ := hi.dev i (hi.excl i hexcl)
      exact Option.some_ne_none d (hd.symm.trans hsame.symm)
  | locked k hdev hothers =>
    have honly := hi.only hdev hothers fun top htop hne => hok k top rfl htop hne hdev hothers
    exact hx.update (fun _ j hj => honly j hj) (fun i hik hexcl => hx i k hik hexcl)
  | unlocked k =>
    refine hx.update (fun he => ?_) (fun i hik hexcl => hx i k hik hexcl)
    rw [AltFd.isExcl_unlock] at he
    cases he
  | changed k arg =>
    refine hx.update (fun he j hj => ?_) (fun i hik hexcl => hx i k hik hexcl)
    rw [AltFd.isExcl_fcntl] at he
    exact hx k j hj.symm he

variable [DecidableEq δ]

theorem slot_coe (k : Fin 32) : slot (k : ℤ) = some k := by
  unfold slot
  rw [dif_pos (by simp)]
  simp

/-- What the request for exclusive access does. -/
theorem step_lock (hdev : (s.fdList k).isDev = true)
    (hlower : ∀ i : Fin 32, (i : ℤ) < s.maxFd → i ≠ k → (s.fdList i).dev ≠ (s.fdList k).dev) :
    step devs s (.ioctl k tiocexcl) =
      some (s.setFd k { s.fdList k with fdFlags := (s.fdList k).fdFlags ||| altFdExcl }) := by
  have hneg : ¬ (k : ℤ) < 0 := by omega
  have hothers : ¬ ∃ i : Fin 32, (i : ℤ) < s.maxFd ∧ i ≠ k ∧
      (s.fdList i).dev = (s.fdList k).dev := by
    rintro ⟨i, hi, hne, hsame⟩
    exact hlower i hi hne hsame
  simp only [step, call, altIoctl, if_neg hneg, slot_coe, Option.bind_some]
  rw [if_pos ⟨(and_altFdDev_iff _).mpr hdev, trivial⟩, altFdLock, if_neg hothers]
  rfl

/-- In the runs in which no lock is asked for to which only the descriptor
    `alt_max_fd` stands in the way, and in no others, a locked descriptor is at all
    times the only one of its device. -/
theorem exclusive_iff_of_inv {es : List Call} (hi : Inv devs s) (hx : Exclusive s) :
    StatesHave (step devs) s Exclusive es ↔ StepsHave (step devs) s GrantOk es := by
  constructor
  · intro hall es' c t t' hpre ht hst fd top hc htop hne hdev hlower hsame
    subst hc
    have ht' : exec (step devs) s (es' ++ [.ioctl fd tiocexcl]) = some t' :=
      exec_concat_eq_some_iff.mpr ⟨t, ht, hst⟩
    rw [step_lock hdev hlower] at hst
    obtain rfl := Option.some.inj hst
    refine hall _ _ hpre ht' fd top hne.symm ?_ ?_
    · simp [State.setFd, AltFd.isExcl, altFdExcl]
    · simp [State.setFd, Function.update_of_ne hne, hsame]
  · intro hsteps
    have hboth : StatesHave (step devs) s (fun r => Inv devs r ∧ Exclusive r) es :=
      hsteps.statesHave (fun r c t hr hok hst =>
        ⟨hr.1.step hst, hr.2.effect hr.1 hok (effect_of_step hr.1.std hst)⟩) ⟨hi, hx⟩
    exact fun es' t hpre ht => (hboth es' t hpre ht).2

/-! ## What a call leaves alone -/

omit [DecidableEq δ] in
/-- What a call can do to the entry of an open descriptor: only `close`, the two
    requests on locks and `F_SETFL` change it, and only if they name it. -/
inductive EntryEffect (s : State δ σ) (k : Fin 32) : Call → AltFd δ → Prop
  | same (c : Call) : EntryEffect s k c (s.fdList k)
  | closed (priv : BitVec 32) (hk : 2 < k.val) : EntryEffect s k (.close k) ⟨none, priv, 0#32⟩
  | locked (hdev : (s.fdList k).isDev = true)
      (hothers : ∀ i : Fin 32, (i : ℤ) < s.maxFd → i ≠ k → (s.fdList i).dev ≠ (s.fdList k).dev) :
      EntryEffect s k (.ioctl k tiocexcl)
        { s.fdList k with fdFlags := (s.fdList k).fdFlags ||| altFdExcl }
  | unlocked : EntryEffect s k (.ioctl k tiocnxcl)
      { s.fdList k with fdFlags := (s.fdList k).fdFlags &&& ~~~altFdExcl }
  | changed (arg : BitVec 32) : EntryEffect s k (.fcntl k fSetfl arg) { s.fdList k with
      fdFlags := (s.fdList k).fdFlags &&& ~~~altFcntlFlagsMask ||| arg &&& altFcntlFlagsMask }

omit [DecidableEq δ] in
theorem Effect.entry (heff : Effect devs s c t) (hopen : (s.fdList k).dev ≠ none) :
    EntryEffect s k c (t.fdList k) := by
  -- a change of the entry of `i`
  have hkeep : ∀ (c : Call) (i : Fin 32) (fd : AltFd δ), (k = i → EntryEffect s k c fd) →
      EntryEffect s k c (Function.update s.fdList i fd k) := by
    intro c i fd hi
    by_cases hki : k = i
    · have hfd := hi hki
      rw [hki, Function.update_self]
      exact hki ▸ hfd
    · rw [Function.update_of_ne hki]
      exact .same c
  cases heff with
  | quiet _ drivers => exact .same c
  | opened _ _ _ i dev isafs fd drivers _ _ hfree =>
    exact hkeep _ i fd fun hki => absurd (hki ▸ hfree) hopen
  | refused _ _ _ i priv drivers _ hfree =>
    exact hkeep _ i _ fun hki => absurd (hki ▸ hfree) hopen
  | closed i priv drivers hi =>
    refine hkeep _ i _ fun hki => ?_
    subst hki
    exact .closed priv hi
  | locked i hdev hothers =>
    refine hkeep _ i _ fun hki => ?_
    subst hki
    exact .locked hdev hothers
  | unlocked i =>
    refine hkeep _ i _ fun hki => ?_
    subst hki
    exact .unlocked
  | changed i arg =>
    refine hkeep _ i _ fun hki => ?_
    subst hki
    exact .changed arg

omit [DecidableEq δ] in
/-- Only `close` takes its device from an open descriptor, and never from a
    standard stream. -/
theorem Effect.dev (heff : Effect devs s c t) (hopen : (s.fdList k).dev ≠ none)
    (hc : 2 < k.val → c ≠ .close k) : (t.fdList k).dev = (s.fdList k).dev := by
  have hentry := heff.entry hopen
  generalize t.fdList k = fd at hentry
  cases hentry with
  | closed priv hk => exact absurd rfl (hc hk)
  | _ => rfl

/-- Can the call change the flags of descriptor `k`, if it succeeds? -/
def Call.SetsFlags (k : Fin 32) : Call → Prop
  | .ioctl file req => file = k ∧ (req = tiocexcl ∨ req = tiocnxcl)
  | .fcntl file cmd _ => file = k ∧ cmd = fSetfl
  | _ => False

omit [DecidableEq δ] in
/-- The other calls leave the entry of an open descriptor alone. -/
theorem Effect.frame (heff : Effect devs s c t) (hopen : (s.fdList k).dev ≠ none)
    (hclose : c ≠ .close k) (hflags : ¬ c.SetsFlags k) : t.fdList k = s.fdList k := by
  have hentry := heff.entry hopen
  generalize t.fdList k = fd at hentry
  cases hentry with
  | same => rfl
  | closed priv hk => exact absurd rfl hclose
  | locked => exact absurd ⟨rfl, Or.inl rfl⟩ hflags
  | unlocked => exact absurd ⟨rfl, Or.inr rfl⟩ hflags
  | changed arg => exact absurd ⟨rfl, rfl⟩ hflags

omit [DecidableEq δ] in
/-- Only `close` and `TIOCNXCL` end a lock. -/
theorem Effect.excl (heff : Effect devs s c t) (hopen : (s.fdList k).dev ≠ none)
    (hexcl : (s.fdList k).isExcl = true) (hclose : c ≠ .close k) (hc : c ≠ .ioctl k tiocnxcl) :
    (t.fdList k).isExcl = true := by
  have hentry := heff.entry hopen
  generalize t.fdList k = fd at hentry
  cases hentry with
  | same => exact hexcl
  | closed priv hk => exact absurd rfl hclose
  | locked => simp [AltFd.isExcl, altFdExcl]
  | unlocked => exact absurd rfl hc
  | changed arg =>
    rw [AltFd.isExcl_fcntl]
    exact hexcl

theorem and_not_altFdExcl {x : BitVec 32} (h : x.getLsbD 31 = false) : x &&& ~~~altFdExcl = x := by
  have hzero : x &&& altFdExcl = 0#32 := by
    by_contra hne
    exact Bool.noConfusion (h.symm.trans ((and_altFdExcl_iff x).mp hne))
  apply BitVec.eq_of_getLsbD_eq
  intro i hi
  have hbit : (x &&& altFdExcl).getLsbD i = false := by rw [hzero, BitVec.getLsbD_zero]
  rw [BitVec.getLsbD_and] at hbit
  rw [BitVec.getLsbD_and, BitVec.getLsbD_not]
  cases hx : x.getLsbD i with
  | false => rfl
  | true =>
    rw [hx, Bool.true_and] at hbit
    rw [hbit, Bool.true_and]
    simpa using hi

omit [DecidableEq δ] in
/-- A standard stream that shares its device with another one is changed by
    `F_SETFL` only: `close` does not release it and no lock is granted on it. -/
theorem Effect.stream (heff : Effect devs s c t) (hi : Inv devs s) (hk : k.val ≤ 2) {j : Fin 32}
    (hj : j.val ≤ 2) (hjk : j ≠ k) (hshared : (s.fdList j).dev = (s.fdList k).dev)
    (hexcl : (s.fdList k).isExcl = false) (hc : ∀ arg, c ≠ .fcntl k fSetfl arg) :
    t.fdList k = s.fdList k := by
  have hentry := heff.entry (hi.std k hk)
  generalize t.fdList k = fd at hentry
  cases hentry with
  | same => rfl
  | closed priv hlt => omega
  | locked hdev hothers =>
    obtain ⟨hmax, -⟩ := hi.dev k hdev
    exact absurd hshared (hothers j (by omega) hjk)
  | unlocked => rw [and_not_altFdExcl hexcl]
  | changed arg => exact absurd rfl (hc arg)

/-! ## The start of the system -/

/-- The table when `main` starts (alt_main.c:107-120): the standard streams are
    redirected from `/dev/null` to the devices of `system.h`. -/
def boot (devs : Devices δ σ) (devNull : δ) (drivers : σ)
    (stdoutDev stdinDev stderrDev : List Char) : State δ σ :=
  altIoRedirect devs (State.init devNull drivers) stdoutDev stdinDev stderrDev

/-- What holds while the streams are redirected. -/
structure Starting (devs : Devices δ σ) (s : State δ σ) : Prop where
  inv : Inv devs s
  unlocked : ∀ i, (s.fdList i).isExcl = false

omit [DecidableEq δ] in
theorem Starting.exclusive (h : Starting devs s) : Exclusive s := by
  intro i j _ hexcl
  exact Bool.noConfusion (hexcl.symm.trans (h.unlocked i))

omit [DecidableEq δ] in
theorem Starting.update (h : Starting devs s) {fd : AltFd δ} {top : ℤ} {drivers : σ}
    (hinv : Inv devs ⟨Function.update s.fdList k fd, top, drivers⟩) (hexcl : fd.isExcl = false) :
    Starting devs ⟨Function.update s.fdList k fd, top, drivers⟩ where
  inv := hinv
  unlocked i := by
    by_cases hik : i = k
    · subst hik
      simpa only [Function.update_self] using hexcl
    · simpa only [Function.update_of_ne hik] using h.unlocked i

omit [DecidableEq δ] in
theorem starting_init (devs : Devices δ σ) (devNull : δ) (drivers : σ) :
    Starting devs (State.init devNull drivers) where
  inv := inv_init devs devNull drivers
  unlocked i := by
    rw [Bool.eq_false_iff]
    intro hexcl
    have hinv := inv_init devs devNull drivers
    obtain ⟨hmax, -⟩ := hinv.dev i (hinv.excl i hexcl)
    exact absurd hmax (by simp [State.init])

omit [DecidableEq δ] in
theorem Starting.release (h : Starting devs s) (k : Fin 32) : Starting devs (altReleaseFd s k) := by
  unfold altReleaseFd
  split_ifs with hk
  · exact h.update (h.inv.effect (.closed k (s.fdList k).priv s.drivers hk)) (by
      simp [AltFd.isExcl])
  · exact h

/-- The redirection of one stream: its descriptor belongs to the device with the
    name, or is as before; the other streams are as before. -/
theorem Starting.altOpenFd (h : Starting devs s) (fd : Fin 32) (hfd : fd.val ≤ 2)
    (name : List Char) (flags mode : BitVec 32) :
    Starting devs (altOpenFd devs s fd name flags mode) := by
  unfold Files.altOpenFd
  split
  · next old r hopen =>
    obtain ⟨dev, isafs, new, drivers, hlookup, hfree, rfl, hdev, hflags, hunlocked⟩ :=
      altOpen_ok hopen
    have hold : 2 < old.val := by
      by_contra hle
      exact h.inv.std old (by omega) hfree
    have hexcl : new.isExcl = false := by
      rw [AltFd.isExcl, hflags, openFlags_excl]
    have hinv := h.inv.effect (.opened name flags mode old dev isafs new drivers hlookup hold hfree
      hdev hflags hunlocked)
    refine Starting.release ?_ old
    have hr := h.update hinv hexcl
    simp only [State.setFd, Function.update_self]
    refine hr.update (hinv.update le_rfl (fun _ hnone => ?_) (fun hlt => ?_) (fun hd => ?_)
      (fun he => ?_)) hexcl
    · rw [hdev] at hnone
      exact Option.some_ne_none dev hnone
    · omega
    · have hnew := hinv.dev old (by simpa only [Function.update_self] using hd)
      simp only [Function.update_self] at hnew
      exact ⟨hnew.1, by omega, hnew.2.2⟩
    · rw [hexcl] at he
      cases he
  · next e r hopen =>
    rcases altOpen_error h.inv.std hopen with ⟨drivers, rfl⟩ | ⟨i, priv, drivers, hi, hfree, rfl⟩
    · exact ⟨⟨h.inv.std, h.inv.below, h.inv.dev, h.inv.excl⟩, h.unlocked⟩
    · exact h.update (h.inv.effect (.refused name flags mode i priv drivers hi hfree)) (by
        simp [AltFd.isExcl])

theorem starting_boot (devs : Devices δ σ) (devNull : δ) (drivers : σ)
    (stdoutDev stdinDev stderrDev : List Char) :
    Starting devs (boot devs devNull drivers stdoutDev stdinDev stderrDev) := by
  have h1 := (starting_init devs devNull drivers).altOpenFd 1 (by decide) stdoutDev oWronly
    0o777#32
  have h0 := h1.altOpenFd 0 (by decide) stdinDev oRdonly 0o777#32
  exact h0.altOpenFd 2 (by decide) stderrDev oWronly 0o777#32

/-- An `open` of a device that has no `open` of its own succeeds if a descriptor
    is free and nothing is locked. -/
theorem Starting.altOpen (h : Starting devs s) {name : List Char} {dev : δ}
    (hlookup : devs.lookup name = some (dev, false)) (hopen : (devs.get dev).open = none)
    (hfree : ∃ i, (s.fdList i).dev = none) (flags mode : BitVec 32) :
    ∃ k t, Files.altOpen devs s name flags mode = (.ok k, t) := by
  obtain ⟨⟨found, r⟩, hget⟩ : ∃ answer, altGetFd s dev = answer := ⟨_, rfl⟩
  cases found with
  | none =>
    obtain ⟨i, hi⟩ := hfree
    exact absurd hi ((altGetFd_none hget).2 i)
  | some k =>
    obtain ⟨-, rfl⟩ := altGetFd_some hget
    obtain ⟨⟨ret, t⟩, hat⟩ : ∃ answer, openAt devs ⟨Function.update s.fdList k
      { s.fdList k with dev := some dev }, max s.maxFd k, s.drivers⟩ dev false k name flags mode =
        answer := ⟨_, rfl⟩
    have hret : ret = .ok 0 := by
      have hlocked : ¬ ∃ i : Fin 32, (i : ℤ) ≤ max s.maxFd k ∧ i ≠ k ∧
          (s.fdList i).isExcl = true := by
        rintro ⟨i, -, -, hexcl⟩
        exact Bool.noConfusion (hexcl.symm.trans (h.unlocked i))
      unfold openAt altFileLocked at hat
      simp only [hopen, Bool.false_eq_true, if_false, State.setFd, Function.update_idem,
        Function.update_self] at hat
      rw [if_neg] at hat
      · exact (Prod.mk.inj hat).1.symm
      · rintro ⟨i, hi, -, hexcl, hne⟩
        rw [Function.update_of_ne hne] at hexcl
        exact hlocked ⟨i, hi, hne, (and_altFdExcl_iff _).mp hexcl⟩
    subst hret
    refine ⟨k, t, ?_⟩
    simp only [Files.altOpen, hlookup, hget, hat]

/-- The redirection of a stream to such a device. -/
theorem Starting.redirected (h : Starting devs s) (fd : Fin 32) (hfd : fd.val ≤ 2)
    {name : List Char} {dev : δ} (hlookup : devs.lookup name = some (dev, false))
    (hopen : (devs.get dev).open = none) (hfree : ∃ i, (s.fdList i).dev = none)
    (flags mode : BitVec 32) :
    (∃ priv, (Files.altOpenFd devs s fd name flags mode).fdList fd =
      ⟨some dev, priv, openFlags flags false⟩) ∧
    (∀ j : Fin 32, j.val ≤ 2 → j ≠ fd →
      (Files.altOpenFd devs s fd name flags mode).fdList j = s.fdList j) ∧
    ∃ i, ((Files.altOpenFd devs s fd name flags mode).fdList i).dev = none := by
  obtain ⟨old, t, hok⟩ := h.altOpen hlookup hopen hfree flags mode
  obtain ⟨dev', isafs, new, drivers, hlookup', hfree', rfl, hdev, hflags, -⟩ := altOpen_ok hok
  obtain ⟨rfl, rfl⟩ := Prod.mk.inj (Option.some.inj (hlookup.symm.trans hlookup'))
  have hold : 2 < old.val := by
    by_contra hle
    exact h.inv.std old (by omega) hfree'
  have hne : fd ≠ old := fun heq => by
    rw [heq] at hfd
    omega
  have hlist : (Files.altOpenFd devs s fd name flags mode).fdList = Function.update
      (Function.update (Function.update s.fdList old new) fd new) old
        ⟨none, new.priv, 0#32⟩ := by
    simp [Files.altOpenFd, hok, altReleaseFd, hold, State.setFd, Function.update_of_ne hne.symm]
  rw [hlist]
  refine ⟨⟨new.priv, ?_⟩, fun j hj hjfd => ?_, old, ?_⟩
  · rw [Function.update_of_ne hne, Function.update_self, ← hdev, ← hflags]
  · have hjold : j ≠ old := fun heq => by
      rw [heq] at hj
      omega
    rw [Function.update_of_ne hjold, Function.update_of_ne hjfd, Function.update_of_ne hjold]
  · rw [Function.update_self]

/-- When `main` starts, the standard streams are on the device that `system.h`
    names for all of them. -/
theorem boot_streams (devNull : δ) (drivers : σ) {name : List Char} {dev : δ}
    (hlookup : devs.lookup name = some (dev, false)) (hopen : (devs.get dev).open = none) :
    (∃ priv, (boot devs devNull drivers name name name).fdList 0 =
      ⟨some dev, priv, openFlags oRdonly false⟩) ∧
    (∃ priv, (boot devs devNull drivers name name name).fdList 1 =
      ⟨some dev, priv, openFlags oWronly false⟩) ∧
    ∃ priv, (boot devs devNull drivers name name name).fdList 2 =
      ⟨some dev, priv, openFlags oWronly false⟩ := by
  have hinit := starting_init devs devNull drivers
  have hfree : ∃ i, ((State.init devNull drivers).fdList i).dev = none := ⟨3, by simp [State.init]⟩
  obtain ⟨h1, -, hfree1⟩ := hinit.redirected 1 (by decide) hlookup hopen hfree oWronly
    0o777#32
  have hs1 := hinit.altOpenFd 1 (by decide) name oWronly 0o777#32
  obtain ⟨h0, hkeep0, hfree0⟩ := hs1.redirected 0 (by decide) hlookup hopen hfree1 oRdonly
    0o777#32
  have hs0 := hs1.altOpenFd 0 (by decide) name oRdonly 0o777#32
  obtain ⟨h2, hkeep2, -⟩ := hs0.redirected 2 (by decide) hlookup hopen hfree0 oWronly
    0o777#32
  refine ⟨?_, ?_, h2⟩
  · rw [← hkeep2 0 (by decide) (by decide)] at h0
    exact h0
  · rw [← hkeep0 1 (by decide) (by decide), ← hkeep2 1 (by decide) (by decide)] at h1
    exact h1

/-- The devices of the system with a driver that takes every request at once. -/
def readyDevices : Devices Device Unit :=
  niosvDevices (jtagUart (fun _ d => (.ok 0, d)) (fun _ _ d => (.ok 0, d))
    (fun _ ptr d => (.ok ptr.length, d)) (fun _ _ d => (.ok 0, d)))

/-- The start of the system with them. -/
def readyBoot : State Device Unit :=
  boot readyDevices .devNull () "/dev/jtag_uart".toList "/dev/jtag_uart".toList
    "/dev/jtag_uart".toList

section Runs

variable {devNull : δ} {drivers : σ} {stdoutDev stdinDev stderrDev : List Char}
  {es es' : List Call} {file : List Char} {flags mode : BitVec 32} {u : State δ σ}

/-- A locked descriptor is the only one of its device at all times of a run after
    the start exactly if no lock is asked for in it to which the descriptor
    `alt_max_fd`, and no other one, stands in the way: the loop of `alt_fd_lock`
    leaves that one out. -/
theorem exclusive_iff :
    StatesHave (step devs) (boot devs devNull drivers stdoutDev stdinDev stderrDev) Exclusive es ↔
      StepsHave (step devs) (boot devs devNull drivers stdoutDev stdinDev stderrDev) GrantOk es :=
  have h := starting_boot devs devNull drivers stdoutDev stdinDev stderrDev
  exclusive_iff_of_inv h.inv h.exclusive

/-- Descriptor 3 is granted the lock although descriptor 4 is open. -/
example : ((exec (step readyDevices) readyBoot [.open "/dev/null".toList 1#32 0#32,
    .open "/dev/null".toList 1#32 0#32, .ioctl 3 tiocexcl]).map fun s =>
      ((s.fdList 3).isExcl, (s.fdList 3).dev, (s.fdList 4).dev)) =
    some (true, some .devNull, some .devNull) := by decide +kernel

theorem inv_of_boot (hs : exec (step devs) (boot devs devNull drivers stdoutDev stdinDev stderrDev)
    es = some s) : Inv devs s :=
  exec_invariant (fun _ _ _ h hst => h.step hst)
    (starting_boot devs devNull drivers stdoutDev stdinDev stderrDev).inv hs

/-- A descriptor that is not closed keeps its device. -/
theorem Inv.held (hi : Inv devs s) (hopen : (s.fdList k).dev ≠ none)
    (hclose : ∀ c ∈ es, c ≠ Call.close k) (hu : exec (Files.step devs) s es = some u) :
    Inv devs u ∧ (u.fdList k).dev = (s.fdList k).dev := by
  refine exec_invariant_of_forall
    (I := fun r => Inv devs r ∧ (r.fdList k).dev = (s.fdList k).dev)
    (fun r c t hr hc hst => ⟨hr.1.step hst, ?_⟩) ⟨hi, rfl⟩ hclose hu
  exact ((effect_of_step hr.1.std hst).dev (hr.2 ▸ hopen) fun _ => hc).trans hr.2

/-- With the calls that change flags left out it keeps its whole entry. -/
theorem Inv.unchanged (hi : Inv devs s) (hopen : (s.fdList k).dev ≠ none)
    (hes : ∀ c ∈ es, c ≠ Call.close k ∧ ¬ c.SetsFlags k)
    (hu : exec (Files.step devs) s es = some u) : u.fdList k = s.fdList k := by
  refine (exec_invariant_of_forall (I := fun r => Inv devs r ∧ r.fdList k = s.fdList k)
    (fun r c t hr hc hst => ⟨hr.1.step hst, ?_⟩) ⟨hi, rfl⟩ hes hu).2
  exact ((effect_of_step hr.1.std hst).frame (hr.2 ▸ hopen) hc.1 hc.2).trans hr.2

/-- A lock lasts until the descriptor is closed or unlocked. -/
theorem Inv.lasts (hi : Inv devs s) (hexcl : (s.fdList k).isExcl = true)
    (hes : ∀ c ∈ es, c ≠ Call.close k ∧ c ≠ .ioctl k tiocnxcl)
    (hu : exec (Files.step devs) s es = some u) : (u.fdList k).isExcl = true := by
  refine (exec_invariant_of_forall (I := fun r => Inv devs r ∧ (r.fdList k).isExcl = true)
    (fun r c t hr hc hst => ⟨hr.1.step hst, ?_⟩) ⟨hi, hexcl⟩ hes hu).2
  obtain ⟨-, -, d, -, hd⟩ := hr.1.dev k (hr.1.excl k hr.2)
  have hopen : (r.fdList k).dev ≠ none := hd ▸ Option.some_ne_none d
  exact (effect_of_step hr.1.std hst).excl hopen hr.2 hc.1 hc.2

/-- A descriptor that `open` has returned is its caller's until it is closed:
    whatever calls are made on it and on others, it belongs to the device of its
    name, and no `open` returns it a second time. Its flags are those it was opened
    with, unless a call on it changes them. -/
theorem descriptor_held
    (hs : exec (step devs) (boot devs devNull drivers stdoutDev stdinDev stderrDev) es = some s)
    (hopen : altOpen devs s file flags mode = (.ok k, t))
    (hclose : ∀ c ∈ es', c ≠ Call.close k) (hu : exec (step devs) t es' = some u) :
    2 < k.val ∧
    (∃ dev isafs, devs.lookup file = some (dev, isafs) ∧ (u.fdList k).dev = some dev ∧
      ((∀ c ∈ es', ¬ c.SetsFlags k) → (u.fdList k).fdFlags = openFlags flags isafs)) ∧
    ∀ file' flags' mode', (altOpen devs u file' flags' mode').1 ≠ .ok k := by
  have hi := inv_of_boot hs
  obtain ⟨dev, isafs, fd, d, hlookup, hfree, rfl, hdev, hflags, hunlocked⟩ := altOpen_ok hopen
  have hk : 2 < k.val := by
    by_contra hle
    exact hi.std k (by omega) hfree
  have ht := hi.effect (.opened file flags mode k dev isafs fd d hlookup hk hfree hdev hflags
    hunlocked)
  have hentry : Function.update s.fdList k fd k = fd := Function.update_self k fd s.fdList
  have hinuse : (Function.update s.fdList k fd k).dev ≠ none := by
    rw [hentry, hdev]
    exact Option.some_ne_none dev
  obtain ⟨-, hkeep⟩ := ht.held hinuse hclose hu
  replace hkeep : (u.fdList k).dev = some dev :=
    hkeep.trans ((congrArg AltFd.dev hentry).trans hdev)
  refine ⟨hk, ⟨dev, isafs, hlookup, hkeep, fun hset => ?_⟩, fun file' flags' mode' hagain => ?_⟩
  · have hsame := ht.unchanged hinuse (fun c hc => ⟨hclose c hc, hset c hc⟩) hu
    exact (congrArg AltFd.fdFlags (hsame.trans hentry)).trans hflags
  · -- `open` takes a free entry, and this one is in use
    obtain ⟨⟨ret, v⟩, hv⟩ : ∃ answer, altOpen devs u file' flags' mode' = answer := ⟨_, rfl⟩
    rw [hv] at hagain
    obtain rfl : ret = .ok k := hagain
    obtain ⟨-, -, -, -, -, hnone, -⟩ := altOpen_ok hv
    rw [hkeep] at hnone
    exact Option.some_ne_none dev hnone

/-- Descriptor 3, written and locked, while a second file is opened and closed. -/
theorem descriptor_held_three : ∃ t u : State Device Unit,
    altOpen readyDevices readyBoot "/dev/null".toList 1#32 0#32 = (.ok 3, t) ∧
    exec (step readyDevices) t [.open "/dev/jtag_uart".toList 1#32 0#32, .write 3 [0x41#8],
      .ioctl 3 tiocexcl, .fcntl 3 fSetfl oNonblock, .close 4] = some u ∧
    2 < (3 : Fin 32).val ∧
    (∃ dev isafs, readyDevices.lookup "/dev/null".toList = some (dev, isafs) ∧
      (u.fdList 3).dev = some dev ∧
      ((∀ c ∈ [.open "/dev/jtag_uart".toList 1#32 0#32, .write 3 [0x41#8], .ioctl 3 tiocexcl,
        .fcntl 3 fSetfl oNonblock, .close 4], ¬ Call.SetsFlags 3 c) →
          (u.fdList 3).fdFlags = openFlags 1#32 isafs)) ∧
    ∀ file' flags' mode', (altOpen readyDevices u file' flags' mode').1 ≠ .ok 3 := by
  have hret : (altOpen readyDevices readyBoot "/dev/null".toList 1#32 0#32).1 = .ok 3 := by
    decide +kernel
  have hrun : (exec (step readyDevices) (altOpen readyDevices readyBoot "/dev/null".toList 1#32
      0#32).2 [.open "/dev/jtag_uart".toList 1#32 0#32, .write 3 [0x41#8], .ioctl 3 tiocexcl,
        .fcntl 3 fSetfl oNonblock, .close 4]).isSome = true := by
    decide +kernel
  obtain ⟨u, hu⟩ := Option.isSome_iff_exists.mp hrun
  have hboot : exec (step readyDevices) readyBoot [] = some readyBoot := rfl
  have hopen : altOpen readyDevices readyBoot "/dev/null".toList 1#32 0#32 =
      (.ok 3, (altOpen readyDevices readyBoot "/dev/null".toList 1#32 0#32).2) :=
    Prod.ext hret rfl
  exact ⟨_, u, hopen, hu, descriptor_held hboot hopen (by simp) hu⟩

/-- While a descriptor is locked, every `open` of its device fails, for the lock if
    a descriptor is free, and takes no descriptor. -/
theorem locked_out
    (hs : exec (step devs) (boot devs devNull drivers stdoutDev stdinDev stderrDev) es = some s)
    (hlock : (s.fdList k).isExcl = true)
    (hes : ∀ c ∈ es', c ≠ Call.close k ∧ c ≠ .ioctl k tiocnxcl)
    (hu : exec (step devs) s es' = some u) {dev : δ} (hdev : (s.fdList k).dev = some dev)
    (hlookup : devs.lookup file = some (dev, false)) :
    ((∃ i, (u.fdList i).dev = none) →
      (altOpen devs u file flags mode).1 = .error .eacces) ∧
    ((∀ i, (u.fdList i).dev ≠ none) →
      (altOpen devs u file flags mode).1 = .error .emfile) ∧
    ∀ i, ((altOpen devs u file flags mode).2.fdList i).dev = (u.fdList i).dev := by
  have hi := inv_of_boot hs
  have hinuse : (s.fdList k).dev ≠ none := by
    rw [hdev]
    exact Option.some_ne_none dev
  obtain ⟨hiu, hkeep⟩ := hi.held hinuse (fun c hc => (hes c hc).1) hu
  have hexcl := hi.lasts hlock hes hu
  obtain ⟨-, hle, -⟩ := hiu.dev k (hiu.excl k hexcl)
  obtain ⟨hfree, hfull⟩ :
      ((∃ i, (u.fdList i).dev = none) → (altOpen devs u file flags mode).1 = .error .eacces) ∧
      ((∀ i, (u.fdList i).dev ≠ none) → (altOpen devs u file flags mode).1 = .error .emfile) :=
    altOpen_locked hlookup hle (hkeep.trans hdev) hexcl
  refine ⟨hfree, hfull, fun i => ?_⟩
  obtain ⟨e, herror⟩ : ∃ e, (altOpen devs u file flags mode).1 = .error e := by
    by_cases hany : ∃ i, (u.fdList i).dev = none
    · exact ⟨_, hfree hany⟩
    · exact ⟨_, hfull fun i hnone => hany ⟨i, hnone⟩⟩
  exact altOpen_error_dev hiu.std (Prod.ext herror rfl) i

/-- `/dev/null`, locked by descriptor 3, while this one is written. -/
theorem locked_out_three : ∃ s u : State Device Unit,
    exec (step readyDevices) readyBoot [.open "/dev/null".toList 1#32 0#32, .ioctl 3 tiocexcl] =
      some s ∧
    exec (step readyDevices) s [.write 3 [0x41#8], .open "/dev/null".toList 1#32 0#32] = some u ∧
    ((∃ i, (u.fdList i).dev = none) →
      (altOpen readyDevices u "/dev/null".toList 1#32 0#32).1 = .error .eacces) ∧
    ((∀ i, (u.fdList i).dev ≠ none) →
      (altOpen readyDevices u "/dev/null".toList 1#32 0#32).1 = .error .emfile) ∧
    ∀ i, ((altOpen readyDevices u "/dev/null".toList 1#32 0#32).2.fdList i).dev =
      (u.fdList i).dev := by
  have hlocked : (exec (step readyDevices) readyBoot [.open "/dev/null".toList 1#32 0#32,
      .ioctl 3 tiocexcl]).map (fun s => ((s.fdList 3).isExcl, (s.fdList 3).dev,
        (exec (step readyDevices) s [.write 3 [0x41#8],
          .open "/dev/null".toList 1#32 0#32]).isSome)) = some (true, some .devNull, true) := by
    decide +kernel
  obtain ⟨s, hs, hfields⟩ := Option.map_eq_some_iff.mp hlocked
  obtain ⟨hexcl, hrest⟩ := Prod.mk.inj hfields
  obtain ⟨hdev, hsome⟩ := Prod.mk.inj hrest
  obtain ⟨u, hu⟩ := Option.isSome_iff_exists.mp hsome
  exact ⟨s, u, hs, hu, locked_out hs hexcl (by simp) hu hdev (by decide +kernel)⟩

/-- A standard stream keeps its entry in every run without `F_SETFL` on it. -/
theorem stream_kept {name : List Char} {dev : δ} (hlookup : devs.lookup name = some (dev, false))
    (hopen : (devs.get dev).open = none) (hk : k.val ≤ 2)
    (hes : ∀ c ∈ es, ∀ arg, c ≠ .fcntl k fSetfl arg)
    (hu : exec (step devs) (boot devs devNull drivers name name name) es = some u) :
    u.fdList k = (boot devs devNull drivers name name name).fdList k := by
  obtain ⟨⟨p0, h0⟩, ⟨p1, h1⟩, p2, h2⟩ := boot_streams devNull drivers hlookup hopen
  have hstart := starting_boot devs devNull drivers name name name
  have hdevs : ∀ j : Fin 32, j.val ≤ 2 →
      ((boot devs devNull drivers name name name).fdList j).dev = some dev := by
    intro j hj
    have hcases : j = 0 ∨ j = 1 ∨ j = 2 := by omega
    rcases hcases with rfl | rfl | rfl
    · rw [h0]
    · rw [h1]
    · rw [h2]
  obtain ⟨j, hj, hjk⟩ : ∃ j : Fin 32, j.val ≤ 2 ∧ j ≠ k := by
    by_cases hzero : k = 0
    · exact ⟨1, by decide, by rw [hzero]; decide⟩
    · exact ⟨0, by decide, Ne.symm hzero⟩
  -- all streams stay on the device, so no lock is granted on this one
  have hboth : Inv devs u ∧ (∀ j : Fin 32, j.val ≤ 2 → (u.fdList j).dev = some dev) ∧
      u.fdList k = (boot devs devNull drivers name name name).fdList k := by
    refine exec_invariant_of_forall (I := fun r => Inv devs r ∧
      (∀ j : Fin 32, j.val ≤ 2 → (r.fdList j).dev = some dev) ∧
        r.fdList k = (boot devs devNull drivers name name name).fdList k)
      (fun r c t hr hc hst => ?_) ⟨hstart.inv, hdevs, rfl⟩ hes hu
    obtain ⟨hi, hd, hkeep⟩ := hr
    have heff := effect_of_step hi.std hst
    refine ⟨hi.effect heff, fun i hi' => ?_, ?_⟩
    · exact (heff.dev (hi.std i hi') fun hlt => by omega).trans (hd i hi')
    · refine (heff.stream hi hk hj hjk ((hd j hj).trans (hd k hk).symm) ?_ hc).trans hkeep
      rw [hkeep]
      exact hstart.unlocked k
  exact hboth.2.2

/-- Whatever the program does, as long as it does not set the flags of `stdout`
    with `F_SETFL`, a `write` to it is a blocking `write` of the device that
    `system.h` names for the three streams. -/
theorem stdout_write {name : List Char} {dev : δ} (hlookup : devs.lookup name = some (dev, false))
    (hopen : (devs.get dev).open = none)
    {write : AltFd δ → List (BitVec 8) → σ → Ret × σ} (hwrite : (devs.get dev).write = some write)
    (hes : ∀ c ∈ es, ∀ arg, c ≠ .fcntl 1 fSetfl arg)
    (hu : exec (step devs) (boot devs devNull drivers name name name) es = some u)
    (ptr : List (BitVec 8)) :
    ∃ priv, altWrite devs u 1 ptr = some ((write ⟨some dev, priv, 0x40000001#32⟩ ptr u.drivers).1,
      { u with drivers := (write ⟨some dev, priv, 0x40000001#32⟩ ptr u.drivers).2 }) := by
  have hkeep := stream_kept (k := 1) hlookup hopen (by decide) hes hu
  obtain ⟨-, ⟨priv, h1⟩, -⟩ := boot_streams devNull drivers hlookup hopen
  rw [h1] at hkeep
  have hflags : openFlags oWronly false = 0x40000001#32 := by decide
  rw [hflags] at hkeep
  have hmode : ¬ (0x40000001#32 &&& oAccmode = oRdonly) := by decide
  have hslot : slot 1 = some 1 := slot_coe 1
  refine ⟨priv, ?_⟩
  simp only [altWrite, hslot, Option.bind_some, hkeep, if_neg hmode, Option.map_some, hwrite]
  rfl

/-- After `close`, a request for exclusive access and `F_GETFL` on `stdout`. -/
theorem stdout_write_closed : ∃ u : State Device Unit,
    exec (step readyDevices) readyBoot [.close 1, .ioctl 1 tiocexcl, .fcntl 1 fGetfl 0#32] =
      some u ∧
    altWrite readyDevices u 1 [0x41#8] = some (.ok 1, u) := by
  have hlookup : readyDevices.lookup "/dev/jtag_uart".toList = some (.jtagUart, false) := by
    decide +kernel
  have hrun : (exec (step readyDevices) readyBoot
      [.close 1, .ioctl 1 tiocexcl, .fcntl 1 fGetfl 0#32]).isSome = true := by
    decide +kernel
  obtain ⟨u, hu⟩ := Option.isSome_iff_exists.mp hrun
  obtain ⟨priv, hwrite⟩ := stdout_write hlookup rfl rfl (by simp [fGetfl, fSetfl]) hu [0x41#8]
  exact ⟨u, hu, hwrite⟩

end Runs

end NiosvCodesign.Firmware.Files
