import RML.Spec.Device
import Mathlib.Tactic.SplitIfs

/-! `lba_to_chs` and the step to the next head, against the linear numbering of the
sectors of a disk. -/

namespace RML

open Bytes

/-- The triple lies in the geometry and has `lba` as its linear number. -/
def Chs.Numbers (chs : Chs) (lba : ℕ) (cylinders heads sectors : UInt8) : Prop :=
  1 ≤ chs.sector ∧ chs.sector ≤ sectors ∧ chs.head < heads ∧ chs.cylinder < cylinders ∧
    chs.linear heads sectors = lba

theorem toNat_ofNat_of_le {n : ℕ} {b : UInt8} (h : n ≤ b.toNat) : (UInt8.ofNat n).toNat = n :=
  UInt8.toNat_ofNat_of_lt' (lt_of_le_of_lt h b.toNat_lt)

theorem track_succ (lba s : ℕ) :
    (lba + 1) / s = if (lba + 1) % s = 0 then lba / s + 1 else lba / s := by
  rw [Nat.succ_div]
  by_cases h : (lba + 1) % s = 0
  · rw [if_pos h, if_pos (Nat.dvd_iff_mod_eq_zero.mpr h)]
  · rw [if_neg h, if_neg (fun hdvd => h (Nat.dvd_iff_mod_eq_zero.mp hdvd)), Nat.add_zero]

theorem side_succ_iff {q h : ℕ} (hh : 1 ≤ h) : (q + 1) % h = q % h ↔ h = 1 := by
  constructor
  · intro heq
    by_contra hne
    have hrest : q % h < h := Nat.mod_lt _ hh
    rw [Nat.add_mod, Nat.mod_eq_of_lt (show 1 < h by omega)] at heq
    by_cases hlast : q % h + 1 = h
    · rw [hlast, Nat.mod_self] at heq
      omega
    · rw [Nat.mod_eq_of_lt (by omega)] at heq
      omega
  · rintro rfl
    rw [Nat.mod_one, Nat.mod_one]

/-- The sector and the cylinder come out right, so that the head decides. -/
theorem lbaToChs_numbers_iff {lba : ℕ} {cylinders heads sectors : UInt8} (hh : 1 ≤ heads.toNat)
    (hs : 1 ≤ sectors.toNat) (hlba : lba < cylinders.toNat * heads.toNat * sectors.toNat) :
    (lbaToChs lba heads sectors).Numbers lba cylinders heads sectors ↔
      (lba + 1) / sectors.toNat % heads.toNat = lba / sectors.toNat % heads.toNat := by
  have hplace : lba % sectors.toNat < sectors.toNat := Nat.mod_lt _ hs
  have hside : ∀ n, n % heads.toNat < heads.toNat := fun n => Nat.mod_lt _ hh
  have hsmall : lba + 1 < 2 ^ 32 := by
    have h1 : cylinders.toNat * heads.toNat ≤ 255 * 255 :=
      Nat.mul_le_mul (Nat.le_of_lt_succ cylinders.toNat_lt) (Nat.le_of_lt_succ heads.toNat_lt)
    have h2 : cylinders.toNat * heads.toNat * sectors.toNat ≤ 255 * 255 * 255 :=
      Nat.mul_le_mul h1 (Nat.le_of_lt_succ sectors.toNat_lt)
    omega
  have htrack : lba / (sectors.toNat * heads.toNat) = lba / sectors.toNat / heads.toNat :=
    (Nat.div_div_eq_div_mul _ _ _).symm
  have hbound : lba / sectors.toNat / heads.toNat < cylinders.toNat := by
    rw [← htrack, Nat.div_lt_iff_lt_mul (Nat.mul_pos hs hh), Nat.mul_comm sectors.toNat,
      ← Nat.mul_assoc]
    exact hlba
  have hsector : (lbaToChs lba heads sectors).sector.toNat = lba % sectors.toNat + 1 :=
    toNat_ofNat_of_le hplace
  have hhead : (lbaToChs lba heads sectors).head.toNat =
      (lba + 1) / sectors.toNat % heads.toNat := by
    have hwrap : wrap (lba + 1) = lba + 1 := Nat.mod_eq_of_lt hsmall
    rw [← hwrap]
    exact toNat_ofNat_of_le (hside _).le
  have hcylinder : (lbaToChs lba heads sectors).cylinder.toNat =
      lba / sectors.toNat / heads.toNat := by
    rw [← htrack]
    exact toNat_ofNat_of_le (htrack ▸ hbound.le)
  simp only [Chs.Numbers, Chs.linear, UInt8.le_iff_toNat_le, UInt8.lt_iff_toNat_lt, hsector, hhead, hcylinder,
    hbound, hside, true_and, Nat.add_sub_cancel]
  have hlinear := Nat.div_add_mod' lba sectors.toNat
  have hsplit := Nat.div_add_mod' (lba / sectors.toNat) heads.toNat
  constructor
  · rintro ⟨-, -, heq⟩
    have hmul : (lba / sectors.toNat / heads.toNat * heads.toNat +
        (lba + 1) / sectors.toNat % heads.toNat) * sectors.toNat =
          lba / sectors.toNat * sectors.toNat := by
      omega
    have hcancel := Nat.eq_of_mul_eq_mul_right hs hmul
    omega
  · intro heq
    rw [heq, hsplit]
    exact ⟨Nat.le_add_left _ _, hplace, hlinear⟩

/-- The head is computed from the sector after the one asked for. For a sector that
ends a track this is the next side, unless there is only one. -/
theorem lbaToChs_inverts_iff {lba : ℕ} {cylinders heads sectors : UInt8} (hh : 1 ≤ heads)
    (hs : 1 ≤ sectors) (hlba : lba < cylinders.toNat * heads.toNat * sectors.toNat) :
    (lbaToChs lba heads sectors).Numbers lba cylinders heads sectors ↔
      (lba + 1) % sectors.toNat ≠ 0 ∨ heads = 1 := by
  have hh' : 1 ≤ heads.toNat := UInt8.le_iff_toNat_le.mp hh
  have hone : heads.toNat = 1 ↔ heads = 1 := by
    rw [← UInt8.toNat_inj]
    rfl
  rw [lbaToChs_numbers_iff hh' (UInt8.le_iff_toNat_le.mp hs) hlba, track_succ]
  by_cases hend : (lba + 1) % sectors.toNat = 0
  · rw [if_pos hend, side_succ_iff hh', hone]
    simp [hend]
  · simp [hend]

theorem lbaToChs_inverts_iff_second : (lbaToChs 18 2 18).Numbers 18 80 2 18 :=
  (lbaToChs_inverts_iff (by decide) (by decide) (by decide)).mpr (Or.inl (by decide))

theorem lbaToChs_last_sector : ¬ ∀ (cylinders heads sectors : UInt8) (lba : ℕ), 1 ≤ cylinders →
    1 ≤ heads → 1 ≤ sectors → lba < cylinders.toNat * heads.toNat * sectors.toNat →
    (lbaToChs lba heads sectors).Numbers lba cylinders heads sectors := by
  intro hlaw
  obtain ⟨-, -, -, -, hnumber⟩ := hlaw 80 2 18 17 (by decide) (by decide) (by decide) (by decide)
  exact absurd hnumber (by decide)

/-! The floppy of 80 cylinders, 2 heads and 18 sectors. -/

def chsOf (l : ℕ) : Chs where
  cylinder := UInt8.ofNat (l / 36)
  head := UInt8.ofNat (l / 18 % 2)
  sector := UInt8.ofNat (l % 18 + 1)

theorem toNat_sector_chsOf (l : ℕ) : (chsOf l).sector.toNat = l % 18 + 1 :=
  UInt8.toNat_ofNat_of_lt' (show l % 18 + 1 < 256 by omega)

theorem toNat_head_chsOf (l : ℕ) : (chsOf l).head.toNat = l / 18 % 2 :=
  UInt8.toNat_ofNat_of_lt' (show l / 18 % 2 < 256 by omega)

theorem chs_ext {a b : Chs} (hc : a.cylinder.toNat = b.cylinder.toNat)
    (hh : a.head.toNat = b.head.toNat) (hs : a.sector.toNat = b.sector.toNat) : a = b := by
  cases a
  cases b
  simp only [Chs.mk.injEq]
  exact ⟨UInt8.toNat_inj.mp hc, UInt8.toNat_inj.mp hh, UInt8.toNat_inj.mp hs⟩

theorem toNat_cylinder_chsOf (l : ℕ) : (chsOf l).cylinder.toNat = l / 36 % 256 :=
  UInt8.toNat_ofNat'

theorem numbers_iff (chs : Chs) (l : ℕ) :
    chs.Numbers l 80 2 18 ↔ l < 2880 ∧ chs = chsOf l := by
  have hgeometry : (80 : UInt8).toNat = 80 ∧ (2 : UInt8).toNat = 2 ∧ (18 : UInt8).toNat = 18 ∧
      (1 : UInt8).toNat = 1 := ⟨rfl, rfl, rfl, rfl⟩
  obtain ⟨h80, h2, h18, h1⟩ := hgeometry
  simp only [Chs.Numbers, Chs.linear, UInt8.le_iff_toNat_le, UInt8.lt_iff_toNat_lt, h80, h2, h18, h1]
  constructor
  · rintro ⟨hpos, hsector, hhead, hcylinder, rfl⟩
    refine ⟨by omega, chs_ext ?_ ?_ ?_⟩
    · rw [toNat_cylinder_chsOf]
      omega
    · rw [toNat_head_chsOf]
      omega
    · rw [toNat_sector_chsOf]
      omega
  · rintro ⟨hl, rfl⟩
    rw [toNat_cylinder_chsOf, toNat_head_chsOf, toNat_sector_chsOf]
    omega

theorem nextHead_chsOf (l : ℕ) :
    nextHead { chsOf l with sector := (chsOf l).sector + 1 } = chsOf (l + 1) := by
  have hsector : ((chsOf l).sector + 1).toNat = l % 18 + 2 := by
    rw [UInt8.toNat_add, toNat_sector_chsOf]
    show (l % 18 + 1 + 1) % 256 = l % 18 + 2
    omega
  have hbump : ((chsOf l).cylinder + 1).toNat = (l / 36 + 1) % 256 := by
    rw [UInt8.toNat_add, toNat_cylinder_chsOf]
    show (l / 36 % 256 + 1) % 256 = (l / 36 + 1) % 256
    omega
  have hlast : (18 : UInt8) < (chsOf l).sector + 1 ↔ l % 18 = 17 := by
    rw [UInt8.lt_iff_toNat_lt, hsector]
    show 18 < l % 18 + 2 ↔ _
    omega
  unfold nextHead
  by_cases hend : l % 18 = 17
  · rw [if_pos (hlast.mpr hend)]
    have hside : (UInt8.ofNat (((chsOf l).head.toNat + 1) % 2)).toNat = (l / 18 + 1) % 2 := by
      rw [toNat_head_chsOf, UInt8.toNat_ofNat_of_lt' (show _ < 256 by omega)]
      omega
    have hzero : UInt8.ofNat (((chsOf l).head.toNat + 1) % 2) = 0 ↔ (l / 18 + 1) % 2 = 0 := by
      rw [← UInt8.toNat_inj, hside]
      rfl
    apply chs_ext
    · rw [toNat_cylinder_chsOf]
      by_cases hback : (l / 18 + 1) % 2 = 0
      · simp only [hzero.mpr hback, if_true, hbump]
        omega
      · simp only [mt hzero.mp hback, if_false, toNat_cylinder_chsOf]
        omega
    · dsimp only
      rw [hside, toNat_head_chsOf]
      omega
    · rw [toNat_sector_chsOf]
      show 1 = (l + 1) % 18 + 1
      omega
  · rw [if_neg (mt hlast.mp hend)]
    apply chs_ext
    · rw [toNat_cylinder_chsOf, toNat_cylinder_chsOf]
      omega
    · rw [toNat_head_chsOf, toNat_head_chsOf]
      omega
    · rw [toNat_sector_chsOf, hsector]
      omega

theorem nextHead_of_numbers {chs : Chs} {l : ℕ} (h : chs.Numbers l 80 2 18) :
    nextHead chs = chsOf l := by
  obtain ⟨hl, rfl⟩ := (numbers_iff chs l).mp h
  have hsector : ¬ (18 : UInt8) < (chsOf l).sector := by
    rw [UInt8.lt_iff_toNat_lt, toNat_sector_chsOf]
    show ¬ 18 < l % 18 + 1
    omega
  rw [nextHead, if_neg hsector]

end RML
