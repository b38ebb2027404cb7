import RML.Proofs.Positions
import RML.Proofs.Directory

/-! Reading a descriptor that is not open. What `close` and zeroed data leave has
parent 0, which is the keyboard: the read goes on there. -/

namespace RML

open Bytes Transition

/-- Zeroed, but for the position an `lseek` may have left. -/
structure FileDescriptor.Closed (d : FileDescriptor) : Prop where
  pathname : d.pathname = []
  pfd : d.pfd = 0
  pfdOffset : d.pfdOffset = 0
  size : d.size = 0

namespace Io

variable {env : Env} {amb : Ambient} {io io' : Io} {pid q : ℕ} {fd i : ℤ}

theorem closed_close (io : Io) (fd : ℤ) (pid : ℕ) : ((io.close fd pid).table pid fd).Closed := by
  rw [close, update_table, if_pos rfl, Function.update_self]
  exact ⟨rfl, rfl, rfl, rfl⟩

theorem Seeks.closed (h : Seeks pid io io') (hc : (io.fdList fd).Closed) :
    (io'.fdList fd).Closed := by
  obtain ⟨pos, heq⟩ := h.fdList fd
  rw [heq]
  exact ⟨hc.pathname, hc.pfd, hc.pfdOffset, hc.size⟩

theorem openFd_spare (io : Io) (pathname : List UInt8) (pid : ℕ) :
    (io.openFd pathname pid).2.fdList 2 = io.fdList 2 := by
  have hupdate : ∀ i f, 2 ≠ i → (io.update pid i f).fdList 2 = io.fdList 2 := by
    intro i f hi
    rw [update_fdList, if_neg fun h => hi h.2]
  unfold openFd
  split_ifs
  · exact hupdate 3 _ (by decide)
  · exact hupdate 0 _ (by decide)
  · exact hupdate 1 _ (by decide)
  · exact hupdate 4 _ (by decide)
  · exact hupdate 5 _ (by decide)
  · rfl

def Spare (io : Io) : Prop := (io.fdList 2).Closed

theorem stable_spare : Stable Spare where
  seeks hs h := h.closed hs
  openFd pathname pid hs := by
    rw [Spare, openFd_spare]
    exact hs
  close fd pid hpid hs := by
    rw [Spare, close_fdList _ fd hpid]
    exact hs
  entered hs := hs

/-- The read ends the same way whatever the devices deliver, takes no key, and leaves
the positions of all descriptors in the tables as they are. -/
def Inert (amb : Ambient) (io : Io) (fd : ℤ) (count pid : ℕ) : Prop :=
  ∃ r, (∀ env, io.read env amb amb.fuel fd count pid = some r) ∧ r.io.keys = io.keys ∧
    ∀ q, ∀ i : ℤ, 0 ≤ i → i < NUM_FILES → (r.io.table q i).pos = (io.table q i).pos

theorem pos_advance {r : ReadResult} (h : r.bytesRead = 0) (fd : ℤ) (q : ℕ) (i : ℤ) :
    ((advance r fd).io.table q i).pos = (r.io.table q i).pos := by
  rw [advance, update_table]
  split_ifs with hq
  · rw [Function.update_apply, h, hq]
    split_ifs with hi
    · rw [hi]
      exact UInt32.add_zero _
    · rfl
  · rfl

/-- The keys that a closed descriptor delivers, and the globals after it. -/
def fromKeyboard (env : Env) (io : Io) (fd : ℤ) (count pid : ℕ) : ReadResult :=
  let sought := io.lseek 0 (wrap (io.fdList fd).pos.toNat) pid
  advance (advance ⟨(List.range count).map fun i => env.key (io.keys + i), 0,
    { sought with keys := io.keys + count }⟩ 0) fd

theorem lseek_keys (io : Io) (fd : ℤ) (offset pid : ℕ) : (io.lseek fd offset pid).keys = io.keys := by
  rw [lseek, update]
  split_ifs <;> rfl

theorem read_closed (hw : Wired io) (hc : (io.fdList fd).Closed) (env : Env) (amb : Ambient)
    {fuel : ℕ} (hfuel : 2 ≤ fuel) (count pid : ℕ) :
    io.read env amb fuel fd count pid = some (fromKeyboard env io fd count pid) := by
  obtain ⟨fuel, rfl⟩ : ∃ n, fuel = n + 2 := ⟨fuel - 2, by omega⟩
  have hparent : ((io.lseek 0 (wrap (io.fdList fd).pos.toNat) pid).fdList 0).pfd = -1 := by
    rw [(seeks_lseek io 0 _ pid).pfd, hw.stdin]
  rw [read, read]
  simp only [hc.pfd, hc.pfdOffset, Nat.zero_add, hparent, lseek_keys, ne_eq, not_true_eq_false,
    if_true, if_false]
  rfl

theorem keys_fromKeyboard (env : Env) (io : Io) (fd : ℤ) (count pid : ℕ) :
    (fromKeyboard env io fd count pid).io.keys = io.keys + count := rfl

theorem pos_fromKeyboard (env : Env) (io : Io) (fd : ℤ) (count pid q : ℕ) (i : ℤ) :
    ((fromKeyboard env io fd count pid).io.table q i).pos =
      if q = pid ∧ i = 0 then (io.fdList fd).pos else (io.table q i).pos := by
  have hpos : UInt32.ofNat (wrap (io.fdList fd).pos.toNat) = (io.fdList fd).pos := by
    rw [wrap, Nat.mod_eq_of_lt (io.fdList fd).pos.toNat_lt, UInt32.ofNat_toNat]
  rw [fromKeyboard, pos_advance rfl, pos_advance rfl]
  show ((io.lseek 0 (wrap (io.fdList fd).pos.toNat) pid).table q i).pos = _
  rw [lseek, update_table, hpos]
  by_cases hq : q = pid
  · rw [if_pos hq, Function.update_apply]
    by_cases hi : i = 0
    · rw [if_pos hi, if_pos ⟨hq, hi⟩]
    · rw [if_neg hi, if_neg fun h => hi h.2, hq]
  · rw [if_neg hq, if_neg fun h => hq h.1]

theorem inert_iff (hw : Wired io) (hc : (io.fdList fd).Closed) (hfuel : 2 ≤ amb.fuel)
    (count pid : ℕ) :
    Inert amb io fd count pid ↔ count = 0 ∧ (io.table pid 0).pos = (io.fdList fd).pos := by
  constructor
  · rintro ⟨r, hread, hkeys, hpos⟩
    have heq := (read_closed hw hc (.ofVolume floppy) amb hfuel count pid).symm.trans (hread _)
    obtain rfl := Option.some.inj heq
    refine ⟨?_, ?_⟩
    · rw [keys_fromKeyboard] at hkeys
      omega
    · have hown := hpos pid 0 (le_refl _) (by simp [NUM_FILES])
      rw [pos_fromKeyboard, if_pos ⟨rfl, rfl⟩] at hown
      exact hown.symm
  · rintro ⟨rfl, hown⟩
    refine ⟨fromKeyboard (.ofVolume floppy) io fd 0 pid, ?_, rfl, ?_⟩
    · intro env
      exact read_closed hw hc env amb hfuel 0 pid
    · intro q i _ _
      rw [pos_fromKeyboard]
      split_ifs with h
      · rw [h.1, h.2, hown]
      · rfl

end Io

namespace Sys

variable {env : Env} {amb : Ambient} {m : Sys}

theorem spare_boot (h : Boot env m) : m.kernel.io.Spare := by
  obtain ⟨-, io₁, io₂, hseeks, hkept, hio⟩ := boot_io h
  have hopened : ∀ {io : Io} pathname, io.Spare → (io.openFd pathname 0).2.Spare :=
    fun pathname hs => Io.stable_spare.openFd pathname 0 hs
  have hzero : Io.Spare {} := ⟨rfl, rfl, rfl, rfl⟩
  have hconsole := Io.stable_spare.seeks (hopened (ascii "/dev/stdout") hzero)
    (Io.seeks_printk _ (ascii "starting kernel...\r\n"))
  have hread : io₁.Spare := Io.stable_spare.seeks (hopened (ascii "/dev/fdb") hconsole) hseeks
  have hdisk : Io.Spare { io₁ with bs := env.bootSector, sPos := env.bootSector.positions } := hread
  rw [hio]
  exact hopened (ascii "/dev/stdin") (hopened (ascii "/") (Io.stable_spare.seeks hdisk hkept))

/-- Of the descriptors 0 to 4 of a table: `close` closes each; the kernel's number 2 is
closed in every reachable state; and a read of one that is closed is inert exactly when it
asks for nothing and the caller's own keyboard stands where that descriptor does. -/
theorem closed_inert_iff (h : Reachable env m) :
    (∀ (fd : ℤ) pid, 0 ≤ fd → fd < NUM_FILES → ((m.kernel.io.close fd pid).table pid fd).Closed) ∧
    (m.kernel.io.fdList 2).Closed ∧
      ∀ amb : Ambient, 2 ≤ amb.fuel → ∀ (fd : ℤ) count pid, 0 ≤ fd → fd < NUM_FILES →
        (m.kernel.io.fdList fd).Closed →
          (m.kernel.io.Inert amb fd count pid ↔
            count = 0 ∧ (m.kernel.io.table pid 0).pos = (m.kernel.io.fdList fd).pos) := by
  have hw := (settled_reachable h).io
  obtain ⟨m₀, es, hboot, hrun⟩ := h
  refine ⟨?_, (settled_run Io.stable_spare hboot (spare_boot hboot) hrun).io, ?_⟩
  · intro fd pid _ _
    exact Io.closed_close m.kernel.io fd pid
  · intro amb hfuel fd count pid _ _ hc
    exact Io.inert_iff hw hc hfuel count pid

theorem closed_inert_iff_booted : ¬ booted.kernel.io.Inert calm 2 1 1 := by
  have hreach : Reachable (.ofVolume floppy) booted := ⟨booted, [], boot_booted, .nil _⟩
  obtain ⟨-, hspare, hiff⟩ := closed_inert_iff hreach
  rw [hiff calm (by decide) 2 1 1 (by decide) (by simp [NUM_FILES]) hspare]
  exact fun h => absurd h.1 (by decide)

theorem closed_takes_key : ¬ ∀ env m, Reachable env m → ∀ amb : Ambient, 2 ≤ amb.fuel →
    ∀ (fd : ℤ) count pid, 0 ≤ fd → fd < NUM_FILES → (m.kernel.io.fdList fd).Closed →
      m.kernel.io.Inert amb fd count pid := by
  intro hlaw
  have hinert := hlaw (.ofVolume floppy) booted ⟨booted, [], boot_booted, .nil _⟩ calm
    (by decide) 2 1 1 (by decide) (by simp [NUM_FILES]) (spare_boot boot_booted)
  have hzero := (Io.inert_iff (wired_boot boot_booted) (spare_boot boot_booted)
    (by decide) 1 1).mp hinert
  exact absurd hzero.1 (by decide)

end Sys

end RML
