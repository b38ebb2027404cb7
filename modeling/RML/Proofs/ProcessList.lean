import RML.Proofs.Programs

/-! The list of processes and the clock: the two system calls that print numbers. -/

namespace RML

open Bytes Decimal Transition

theorem Io.printk_printk (io : Io) (a b : List UInt8) :
    (io.printk a).printk b = io.printk (a ++ b) := by
  simp only [Io.printk, Io.write, true_or, if_true, List.append_assoc]

theorem Io.printk_nil (io : Io) : io.printk [] = io := by
  simp only [Io.printk, Io.write, true_or, if_true, List.append_nil]

namespace Kernel

variable {k : Kernel} {ps : List Program}

theorem processListLoop_add (a b i : ℕ) (io : Io) : processListLoop k (a + b) i io =
    (processListLoop k a i io).bind (processListLoop k b (i + a)) := by
  induction a generalizing i io with
  | zero => rw [Nat.zero_add]; rfl
  | succ a ih =>
    have hsum : i + 1 + a = i + (a + 1) := by omega
    rw [Nat.succ_add, processListLoop, processListLoop]
    by_cases hfree : (k.sched.processes i).pid = 0
    · simp only [if_pos hfree, ih, hsum]
    · simp only [if_neg hfree, ih, hsum, Option.bind_eq_bind, Option.bind_assoc]

theorem processListLoop_free {n i : ℕ} (io : Io)
    (h : ∀ j, i ≤ j → j < i + n → (k.sched.processes j).pid = 0) :
    processListLoop k n i io = some io := by
  induction n generalizing i with
  | zero => rfl
  | succ n ih =>
    simp only [processListLoop, h i (le_refl i) (by omega), if_true]
    exact ih fun j hj hlt => h j (by omega) (by omega)

/-- The row of one slot; a size of seven digits overruns the buffer of `uitoa`. -/
theorem processListLoop_row {i : ℕ} {p : Program} {state : ProcState} (io : Io) (hi : i < 8)
    (hslot : k.sched.processes i = p.slot i state) (hsmall : p.size < 2 ^ 32) :
    processListLoop k 1 i io =
      if p.size < 1000000 then some (io.printk (processText i p state)) else none := by
  have hsize : uitoa p.size = if p.size < 1000000 then some (print p.size) else none := by
    rw [uitoa_eq (hsmall.trans (by decide))]
    simp only [length_print_le_iff p.size 5]
    rfl
  have hseg : segmentAt i < 1000000 := by
    simp only [segmentAt]
    omega
  have hpid : i + 1 ≠ 0 := by omega
  simp only [processListLoop, hslot, Program.slot, if_neg hpid,
    uitoa_small (show i + 1 < 1000000 by omega), uitoa_small (show i < 1000000 by omega),
    uitoa_small hseg, hsize, Option.bind_eq_bind, Option.bind_some]
  split_ifs <;> rfl

theorem processListLoop_waiting (io : Io) (hres : Resident k.sched.processes ps)
    (hready : ∀ i < ps.length, (k.sched.processes i).state = .READY)
    (hsmall : ∀ p ∈ ps, p.size < 2 ^ 32) (hlen : ps.length ≤ 8) :
    processListLoop k ps.length 0 io = if ∀ p ∈ ps, p.size < 1000000 then
      some (io.printk (waitingTexts ps)) else none := by
  induction ps with
  | nil => rw [if_pos (by simp), waitingTexts, Io.printk_nil]; rfl
  | cons p ps ih =>
    rw [List.length_cons] at hlen hready
    obtain ⟨⟨state, hslot⟩, hrest⟩ := hres
    obtain rfl : state = .READY := by
      rw [← hready ps.length (by omega), hslot]
      rfl
    rw [List.forall_mem_cons] at hsmall
    rw [List.length_cons, processListLoop_add, Nat.zero_add,
      ih hrest (fun i hi => hready i (by omega)) hsmall.2 (by omega)]
    simp only [List.forall_mem_cons]
    by_cases hall : ∀ q ∈ ps, q.size < 1000000
    · simp only [if_pos hall, Option.bind_some,
        processListLoop_row _ (show ps.length < 8 by omega) hslot hsmall.1, Io.printk_printk,
        waitingTexts, and_iff_left hall]
    · rw [if_neg hall, if_neg fun h => hall h.2, Option.bind_none]

end Kernel

theorem Stacked.top_slot {env : Env} {m : Sys} {p : Program} {ps : List Program}
    (h : Stacked env m (p :: ps)) :
    m.kernel.sched.processes ps.length = p.slot ps.length .RUNNING := by
  have hframes : m.frames.length = ps.length + 1 := by
    rw [h.frames_eq, length_framesOf, List.length_cons]
  have hstate := (h.running (by
    rw [h.frames_eq]
    exact List.cons_ne_nil _ _)).2
  rw [hframes, Nat.add_sub_cancel] at hstate
  obtain ⟨⟨state, hslot⟩, -⟩ := h.resident
  obtain rfl : state = .RUNNING := by
    rw [← hstate, hslot]
    rfl
  exact hslot

def ProcessDesc.text (p : ProcessDesc) : List UInt8 :=
  ascii "root " ++ print p.pid ++ ascii " " ++ print p.ppid ++ ascii " " ++ print p.cs ++
    ascii " " ++ Kernel.procStateText p.state ++ ascii " " ++ print p.size ++ ascii " " ++
    p.name ++ ascii "\r\n"

theorem waitingTexts_eq {procs : ℕ → ProcessDesc} {ps : List Program} (hres : Resident procs ps)
    (hready : ∀ i < ps.length, (procs i).state = .READY) :
    waitingTexts ps = (List.range ps.length).flatMap fun i => (procs i).text := by
  induction ps with
  | nil => rfl
  | cons p ps ih =>
    rw [List.length_cons] at hready
    obtain ⟨⟨state, hslot⟩, hrest⟩ := hres
    obtain rfl : state = .READY := by
      rw [← hready ps.length (by omega), hslot]
      rfl
    rw [waitingTexts, ih hrest fun i hi => hready i (by omega), List.length_cons, List.range_succ,
      List.flatMap_append, List.flatMap_singleton, hslot]
    rfl

theorem Stacked.processTexts_eq {env : Env} {m : Sys} {ps : List Program} (h : Stacked env m ps)
    (hne : ps ≠ []) : processTexts ps =
      (List.range ps.length).flatMap fun i => (m.kernel.sched.processes i).text := by
  cases ps with
  | nil => exact absurd rfl hne
  | cons p ps =>
    have hframes : m.frames.length = ps.length + 1 := by
      rw [h.frames_eq, length_framesOf, List.length_cons]
    rw [List.length_cons, List.range_succ, List.flatMap_append, List.flatMap_singleton,
      ← waitingTexts_eq h.resident.2 fun i hi => h.ready i (by omega), processTexts,
      h.top_slot]
    rfl

theorem Resident.sizes_iff {procs : ℕ → ProcessDesc} {ps : List Program} (h : Resident procs ps)
    (n : ℕ) : (∀ p ∈ ps, p.size < n) ↔ ∀ i < ps.length, (procs i).size < n := by
  induction ps with
  | nil => simp
  | cons p ps ih =>
    obtain ⟨⟨state, hslot⟩, hrest⟩ := h
    have hsize : (procs ps.length).size = p.size := by
      rw [hslot]
      rfl
    rw [List.forall_mem_cons, ih hrest, List.length_cons]
    constructor
    · rintro ⟨hp, hps⟩ i hi
      rcases Nat.lt_succ_iff_lt_or_eq.mp hi with hlt | rfl
      · exact hps i hlt
      · rwa [hsize]
    · intro hall
      refine ⟨?_, fun i hi => hall i (Nat.lt_succ_of_lt hi)⟩
      rw [← hsize]
      exact hall ps.length (Nat.lt_succ_self _)

/-- `get_process_list` prints a row for each program that lives, the lowest first and the
running one last, unless a size has seven digits. -/
theorem Stacked.getProcessList {env : Env} {m : Sys} {ps : List Program} {k : Kernel}
    (h : Stacked env m ps) (hne : ps ≠ []) (hsched : k.sched = m.kernel.sched) :
    k.getProcessList = if ∀ p ∈ ps, p.size < 1000000 then
      some (k.io.printk (processesText ps)) else none := by
  cases ps with
  | nil => exact absurd rfl hne
  | cons p ps =>
    have hframes : m.frames.length = ps.length + 1 := by
      rw [h.frames_eq, length_framesOf, List.length_cons]
    have hlen : ps.length + 1 ≤ 8 := hframes.symm.trans_le h.live.length_le
    have hrest := h.resident.2
    have hslot := h.top_slot
    have hrows := Kernel.processListLoop_waiting (k := k)
      (k.io.printk (ascii "USER PID PPID CS STAT SIZE NAME\r\n"))
      (by rw [hsched]; exact hrest) (fun i hi => by rw [hsched]; exact h.ready i (by omega))
      (fun q hq => h.small q (List.mem_cons_of_mem p hq)) (by omega)
    have hfree : ∀ io, Kernel.processListLoop k (8 - ps.length) (ps.length + 1) io = some io := by
      intro io
      refine Kernel.processListLoop_free io fun j hj hlt => ?_
      rw [hsched]
      exact h.free j (by omega) (by simp only [NUM_PROCESSES]; omega)
    have hslots : NUM_PROCESSES = ps.length + (1 + (8 - ps.length)) := by
      simp only [NUM_PROCESSES]
      omega
    rw [Kernel.getProcessList, hslots, Kernel.processListLoop_add, Nat.zero_add, hrows]
    simp only [List.forall_mem_cons]
    by_cases hall : ∀ q ∈ ps, q.size < 1000000
    · rw [if_pos hall, Option.bind_some, Kernel.processListLoop_add,
        Kernel.processListLoop_row _ (show ps.length < 8 by omega) (by rw [hsched]; exact hslot)
          (h.small p List.mem_cons_self)]
      simp only [and_iff_left hall]
      split_ifs
      · rw [Option.bind_some, hfree]
        simp only [Io.printk_printk, processesText, processTexts, List.append_assoc]
      · rfl
    · rw [if_neg hall, if_neg fun h => hall h.2, Option.bind_none]

theorem Kernel.time_eq (c : Clock) (io : Io) : time c io = some (io.printk (clockText c)) := by
  have hlow : ∀ b : UInt8, (b &&& 0x0F).toNat < 256 := fun b => UInt8.toNat_lt _
  have hhigh : ∀ b : UInt8, ((b &&& 0xF0) >>> 4).toNat < 256 := fun b => UInt8.toNat_lt _
  have hbcd : ∀ b, bcd b < 3000 := by
    intro b
    have h1 := hlow b
    have h2 := hhigh b
    simp only [bcd]
    omega
  have hbcd' : ∀ b, uitoa (bcd b) = some (print (bcd b)) :=
    fun b => uitoa_small ((hbcd b).trans (by decide))
  have hyear : ((c.century &&& 0xF0) >>> 4).toNat * 1000 + (c.century &&& 0x0F).toNat * 100 +
      bcd c.year < 1000000 := by
    have h1 := hlow c.century
    have h2 := hhigh c.century
    have h3 := hbcd c.year
    omega
  simp only [time, uitoa_small hyear, hbcd', Option.bind_eq_bind, Option.bind_some]
  rfl

/-- A number below 100 as the clock chip keeps it. -/
def toBcd (n : ℕ) : UInt8 := UInt8.ofNat (n / 10 * 16 + n % 10)

theorem bcd_toBcd : ∀ n < 100, Kernel.bcd (toBcd n) = n := by decide

structure Moment where
  year : ℕ
  month : ℕ
  day : ℕ
  hours : ℕ
  minutes : ℕ
  seconds : ℕ

namespace Moment

/-- The chip has two digits for each byte. -/
structure Valid (t : Moment) : Prop where
  year : t.year < 10000
  month : t.month < 100
  day : t.day < 100
  hours : t.hours < 100
  minutes : t.minutes < 100
  seconds : t.seconds < 100

def clock (t : Moment) : Clock where
  century := toBcd (t.year / 100)
  year := toBcd (t.year % 100)
  month := toBcd t.month
  day := toBcd t.day
  hours := toBcd t.hours
  minutes := toBcd t.minutes
  seconds := toBcd t.seconds

def text (t : Moment) : List UInt8 :=
  print t.year ++ ascii "/" ++ print t.month ++ ascii "/" ++ print t.day ++ ascii " " ++
    print t.hours ++ ascii ":" ++ print t.minutes ++ ascii ":" ++ print t.seconds ++ ascii "\r\n"

theorem year_clock {year : ℕ} (h : year < 10000) :
    ((toBcd (year / 100) &&& 0xF0) >>> 4).toNat * 1000 +
      (toBcd (year / 100) &&& 0x0F).toNat * 100 + Kernel.bcd (toBcd (year % 100)) = year := by
  have hcentury := bcd_toBcd (year / 100) (by omega)
  rw [bcd_toBcd (year % 100) (Nat.mod_lt _ (by decide))]
  simp only [Kernel.bcd] at hcentury
  omega

theorem clockText_clock {t : Moment} (h : t.Valid) : clockText t.clock = t.text := by
  obtain ⟨hyear, hmonth, hday, hhours, hminutes, hseconds⟩ := h
  simp only [clockText, clock, text, year_clock hyear, bcd_toBcd _ hmonth, bcd_toBcd _ hday,
    bcd_toBcd _ hhours, bcd_toBcd _ hminutes, bcd_toBcd _ hseconds]

end Moment

end RML
