import Mathlib.Algebra.Order.Ring.Nat
import Mathlib.Data.Nat.Log
import Mathlib.Tactic.Ring

/-! The nonnegative finite numbers of IEEE binary64, each as the multiple of `2 ^ -1074` it is, with
operations rounded to nearest, ties to even. Overflow is left out. -/
namespace EtvStation.Lib

/-- The quotient to the nearest integer, a tie to the even one. -/
def nearest (p q : ℕ) : ℕ :=
  if 2 * (p % q) < q ∨ 2 * (p % q) = q ∧ p / q % 2 = 0 then p / q else p / q + 1

theorem nearest_bounds (p : ℕ) {q : ℕ} (hq : 0 < q) :
    2 * (q * nearest p q) ≤ 2 * p + q ∧ 2 * p ≤ 2 * (q * nearest p q) + q := by
  have hsplit := Nat.div_add_mod p q
  have hlt := Nat.mod_lt p hq
  unfold nearest
  split_ifs with h
  · omega
  · rw [Nat.mul_add, Nat.mul_one]
    omega

/-- Less than half a unit away there is no other integer as near. -/
theorem nearest_eq {p q n : ℕ} (hlo : 2 * (q * n) < 2 * p + q) (hhi : 2 * p < 2 * (q * n) + q) :
    nearest p q = n := by
  have hq : 0 < q := by omega
  obtain ⟨habove, hbelow⟩ := nearest_bounds p hq
  rcases Nat.lt_trichotomy (nearest p q) n with h | h | h
  · have := Nat.mul_le_mul_left q (Nat.succ_le_of_lt h)
    rw [Nat.succ_eq_add_one, Nat.mul_add, Nat.mul_one] at this
    omega
  · exact h
  · have := Nat.mul_le_mul_left q (Nat.succ_le_of_lt h)
    rw [Nat.succ_eq_add_one, Nat.mul_add, Nat.mul_one] at this
    omega

theorem nearest_mul {q : ℕ} (hq : 0 < q) (n : ℕ) : nearest (q * n) q = n :=
  nearest_eq (by omega) (by omega)

/-- A significand of 53 bits, and a power of two. -/
def Fits (u : ℕ) : Prop := ∃ m e, m < 2 ^ 53 ∧ u = m * 2 ^ e

structure F64 where
  units : ℕ
  fits : Fits units

namespace F64

theorem ext {x y : F64} (h : x.units = y.units) : x = y := by
  cases x
  cases y
  congr

/-- How many units there are between two neighbours among the numbers about `p / q`. -/
def quantum (p q : ℕ) : ℕ := 2 ^ (Nat.log2 (p / q) - 52)

theorem quantum_pos (p q : ℕ) : 0 < quantum p q := Nat.two_pow_pos _

theorem lt_quantum {p q : ℕ} (hq : 0 < q) : p < q * quantum p q * 2 ^ 53 := by
  have hlog : p / q < 2 ^ (Nat.log2 (p / q) + 1) := Nat.lt_log2_self
  have hpow : 2 ^ (Nat.log2 (p / q) + 1) ≤ quantum p q * 2 ^ 53 := by
    rw [quantum, ← Nat.pow_add]
    exact Nat.pow_le_pow_right (by omega) (by omega)
  have hlt := (Nat.div_lt_iff_lt_mul hq).mp (hlog.trans_le hpow)
  rwa [Nat.mul_comm, ← Nat.mul_assoc] at hlt

/-- The number nearest to `p / q`. -/
def round (p q : ℕ) : ℕ := nearest p (q * quantum p q) * quantum p q

theorem round_fits {p q : ℕ} (hq : 0 < q) : Fits (round p q) := by
  have hstep := Nat.mul_pos hq (quantum_pos p q)
  have hlt := lt_quantum (p := p) hq
  obtain ⟨habove, -⟩ := nearest_bounds p hstep
  have hle : nearest p (q * quantum p q) ≤ 2 ^ 53 := by
    by_contra hmore
    have := Nat.mul_le_mul_left (q * quantum p q) (Nat.succ_le_of_lt (not_le.mp hmore))
    rw [Nat.succ_eq_add_one, Nat.mul_add, Nat.mul_one] at this
    omega
  rcases Nat.lt_or_eq_of_le hle with hlt | heq
  · exact ⟨_, _, hlt, rfl⟩
  · refine ⟨2 ^ 52, Nat.log2 (p / q) - 52 + 1, by omega, ?_⟩
    rw [round, heq, quantum, Nat.pow_succ 2 (_ - 52), Nat.pow_succ 2 52]
    ring

/-- A number that fits is its own rounding. -/
theorem round_mul {q u : ℕ} (hq : 0 < q) (hu : Fits u) : round (q * u) q = u := by
  obtain ⟨m, e, hm, rfl⟩ := hu
  have hdiv : q * (m * 2 ^ e) / q = m * 2 ^ e := Nat.mul_div_cancel_left _ hq
  have hdvd : quantum (q * (m * 2 ^ e)) q ∣ m * 2 ^ e := by
    rw [quantum, hdiv]
    rcases Nat.eq_zero_or_pos m with rfl | hpos
    · simp
    refine Dvd.dvd.mul_left (pow_dvd_pow 2 ?_) m
    have hlt : m * 2 ^ e < 2 ^ (53 + e) := by
      rw [Nat.pow_add]
      exact Nat.mul_lt_mul_of_pos_right hm (Nat.two_pow_pos e)
    have := (Nat.log2_lt (Nat.mul_pos hpos (Nat.two_pow_pos e)).ne').mpr hlt
    omega
  obtain ⟨n, hn⟩ := hdvd
  rw [round]
  set step := quantum (q * (m * 2 ^ e)) q with hstep
  rw [hn, ← Nat.mul_assoc, nearest_mul (Nat.mul_pos hq (quantum_pos _ _)), Nat.mul_comm]

/-- Rounding is off by half a quantum at most. -/
theorem round_bounds {p q j : ℕ} (hq : 0 < q) (hj : p < q * 2 ^ (j + 53)) :
    2 * (q * round p q) ≤ 2 * p + q * 2 ^ j ∧ 2 * p ≤ 2 * (q * round p q) + q * 2 ^ j := by
  have hstep := Nat.mul_pos hq (quantum_pos p q)
  obtain ⟨habove, hbelow⟩ := nearest_bounds p hstep
  have hle : quantum p q ≤ 2 ^ j := by
    refine Nat.pow_le_pow_right (by omega) ?_
    rcases Nat.eq_zero_or_pos (p / q) with hzero | hpos
    · rw [hzero, Nat.log2_zero]
      omega
    have hlt : p / q < 2 ^ (j + 53) := by
      rwa [Nat.div_lt_iff_lt_mul hq, Nat.mul_comm]
    have := (Nat.log2_lt hpos.ne').mpr hlt
    omega
  have hmul := Nat.mul_le_mul_left q hle
  have heq : q * round p q = q * quantum p q * nearest p (q * quantum p q) := by
    rw [round]
    ring
  rw [heq]
  omega

/-- The exponent of the unit, the other way round. -/
@[irreducible] def scale : ℕ := 1074

def one : ℕ := 2 ^ scale

theorem one_pos : 0 < one := Nat.two_pow_pos scale

def ofNat (n : ℕ) : F64 := ⟨round (n * one) 1, round_fits Nat.one_pos⟩

def add (x y : F64) : F64 := ⟨round (x.units + y.units) 1, round_fits Nat.one_pos⟩

/-- `x - y`, for `y` no more than `x`. -/
def sub (x y : F64) : F64 := ⟨round (x.units - y.units) 1, round_fits Nat.one_pos⟩

def mul (x y : F64) : F64 := ⟨round (x.units * y.units) one, round_fits one_pos⟩

/-- `x / n`, for an `n` that is exact. -/
def divNat (x : F64) (n : ℕ) (h : 0 < n) : F64 := ⟨round x.units n, round_fits h⟩

/-- What is left of `x` when `y` is taken from it as often as it goes; it is exact. -/
def rem (x y : F64) : F64 where
  units := x.units % y.units
  fits := by
    obtain ⟨m, e, hm, hx⟩ := x.fits
    obtain ⟨n, f, hn, hy⟩ := y.fits
    rcases Nat.eq_zero_or_pos n with rfl | hpos
    · rw [hy, Nat.zero_mul, Nat.mod_zero]
      exact x.fits
    rw [hx, hy]
    rcases Nat.lt_or_ge f e with hlt | hle
    · obtain ⟨k, rfl⟩ := Nat.exists_eq_add_of_lt hlt
      refine ⟨m * 2 ^ (k + 1) % n, f, (Nat.mod_lt _ hpos).trans hn, ?_⟩
      rw [← Nat.mul_mod_mul_right]
      congr 1
      ring
    · obtain ⟨k, rfl⟩ := Nat.exists_eq_add_of_le hle
      refine ⟨m % (n * 2 ^ k), e, (Nat.mod_le _ _).trans_lt hm, ?_⟩
      rw [← Nat.mul_mod_mul_right]
      congr 1
      ring

theorem fits_ofNat {n : ℕ} (h : n < 2 ^ 53) : Fits (n * one) := ⟨n, scale, h, rfl⟩

theorem ofNat_units {n : ℕ} (h : n < 2 ^ 53) : (ofNat n).units = n * one := by
  have hround := round_mul Nat.one_pos (fits_ofNat h)
  rwa [Nat.one_mul] at hround

/-- A sum that fits is exact. -/
theorem add_units {x y : F64} (h : Fits (x.units + y.units)) :
    (x.add y).units = x.units + y.units := by
  have hround := round_mul Nat.one_pos h
  rwa [Nat.one_mul] at hround

theorem ofNat_add {a b : ℕ} (h : a + b < 2 ^ 53) : (ofNat a).add (ofNat b) = ofNat (a + b) := by
  have ha := ofNat_units (n := a) (by omega)
  have hb := ofNat_units (n := b) (by omega)
  refine ext ?_
  rw [add_units, ha, hb, ofNat_units h, Nat.add_mul]
  rw [ha, hb, ← Nat.add_mul]
  exact fits_ofNat h

/-! Lengths in whole nanoseconds, as numbers of seconds and back. -/

def NANOS : ℕ := 1000000000

theorem nanos_pos : 0 < NANOS := by decide

/-- A length in seconds: the whole ones, and its nanoseconds divided. -/
def asSecs (ns : ℕ) : F64 :=
  (ofNat (ns / NANOS)).add ((ofNat (ns % NANOS)).divNat NANOS nanos_pos)

/-- Seconds as the nearest whole number of nanoseconds, a tie to the even one. -/
def toNanos (x : F64) : ℕ := nearest (x.units * NANOS) one

/-- Lengths summed from the first to the last, as seconds. -/
def totalSecs (lengths : List ℕ) : F64 :=
  lengths.foldl (fun total d => total.add (asSecs d)) (ofNat 0)

theorem toNanos_ofNat {n : ℕ} (h : n < 2 ^ 53) : (ofNat n).toNanos = n * NANOS := by
  rw [toNanos, ofNat_units h, Nat.mul_right_comm, Nat.mul_comm, nearest_mul one_pos]

theorem asSecs_whole {n : ℕ} (h : n < 2 ^ 53) : asSecs (n * NANOS) = ofNat n := by
  have hzero : (ofNat 0).divNat NANOS nanos_pos = ofNat 0 := by
    refine ext ?_
    have hunits := ofNat_units (n := 0) (by omega)
    rw [Nat.zero_mul] at hunits
    have hround := round_mul nanos_pos (show Fits 0 from ⟨0, 0, by omega, by omega⟩)
    rw [Nat.mul_zero] at hround
    exact (congrArg (round · NANOS) hunits).trans (hround.trans hunits.symm)
  rw [asSecs, Nat.mul_div_cancel _ nanos_pos, Nat.mul_mod_left, hzero, ofNat_add h, Nat.add_zero]

/-- Whole seconds add up exactly. -/
theorem totalSecs_whole {lengths : List ℕ} (hwhole : ∀ d ∈ lengths, NANOS ∣ d)
    (hsum : lengths.sum < 2 ^ 53 * NANOS) : (totalSecs lengths).toNanos = lengths.sum := by
  have hall : ∀ (rest : List ℕ) (n : ℕ), (∀ d ∈ rest, NANOS ∣ d) →
      n * NANOS + rest.sum < 2 ^ 53 * NANOS →
      (rest.foldl (fun total d => total.add (asSecs d)) (ofNat n)).toNanos =
        n * NANOS + rest.sum := by
    intro rest
    induction rest with
    | nil =>
      intro n _ hlt
      rw [List.sum_nil, Nat.add_zero] at hlt ⊢
      exact toNanos_ofNat (Nat.lt_of_mul_lt_mul_right hlt)
    | cons d rest ih =>
      intro n hdvd hlt
      obtain ⟨m, rfl⟩ := hdvd d List.mem_cons_self
      rw [List.sum_cons, Nat.mul_comm NANOS m, ← Nat.add_assoc, ← Nat.add_mul] at hlt
      have hnm : n + m < 2 ^ 53 :=
        Nat.lt_of_mul_lt_mul_right ((Nat.le_add_right _ rest.sum).trans_lt hlt)
      have hsum := ih (n + m) (fun d hd => hdvd d (List.mem_cons_of_mem _ hd)) hlt
      rw [List.foldl_cons, Nat.mul_comm NANOS m, asSecs_whole (by omega), ofNat_add hnm, hsum,
        List.sum_cons, Nat.add_mul, Nat.add_assoc]
  have hsum' := hall lengths 0 hwhole (by rwa [Nat.zero_mul, Nat.zero_add])
  rwa [Nat.zero_mul, Nat.zero_add] at hsum'

/-- Below `2 ^ e` a rounding is off by one part in `2 ^ 54` of that at most. -/
theorem round_error {p q : ℕ} (e : ℕ) (hq : 0 < q) (hp : p < q * (one * 2 ^ e)) :
    2 ^ 54 * (q * round p q) ≤ 2 ^ 54 * p + q * (one * 2 ^ e) ∧
      2 ^ 54 * p ≤ 2 ^ 54 * (q * round p q) + q * (one * 2 ^ e) := by
  obtain ⟨j, hj⟩ : ∃ j, scale + e = j + 53 := by
    refine ⟨scale + e - 53, ?_⟩
    unfold scale
    omega
  have hpow : one * 2 ^ e = 2 ^ j * 2 ^ 53 := by
    rw [one, ← Nat.pow_add, hj, Nat.pow_add]
  have hbounds := round_bounds (p := p) (j := j) hq (by rwa [Nat.pow_add, ← hpow])
  have hassoc : q * (2 ^ j * 2 ^ 53) = q * 2 ^ j * 2 ^ 53 := (Nat.mul_assoc _ _ _).symm
  rw [hpow, hassoc]
  omega

/-- Below some 97 days neighbouring numbers of seconds are less than a nanosecond apart. -/
theorem asSecs_error {ns : ℕ} (h : ns < 2 ^ 23 * NANOS) :
    2 ^ 54 * (NANOS * (asSecs ns).units) ≤ 2 ^ 54 * (ns * one) + (2 ^ 23 + 1) * (NANOS * one) ∧
      2 ^ 54 * (ns * one) ≤ 2 ^ 54 * (NANOS * (asSecs ns).units) +
        (2 ^ 23 + 1) * (NANOS * one) := by
  have hsplit := Nat.div_add_mod ns NANOS
  have hwhole : ns / NANOS < 2 ^ 23 := (Nat.div_lt_iff_lt_mul nanos_pos).mpr h
  have hrest : ns % NANOS < NANOS := Nat.mod_lt _ nanos_pos
  have hs := ofNat_units (n := ns / NANOS) (by omega)
  have hf := ofNat_units (n := ns % NANOS) (hrest.trans (by decide))
  set s := ns / NANOS with hsdef
  set f := ns % NANOS with hfdef
  set x := round (f * one) NANOS with hx
  have hunits : (asSecs ns).units = round (s * one + x) 1 :=
    congrArg (round · 1) (congrArg₂ (· + ·) hs (congrArg (round · NANOS) hf))
  have hns : ns * one = NANOS * (s * one) + f * one := by
    rw [← hsplit]
    ring
  have hfone : f * one + one ≤ NANOS * one := by
    rw [← Nat.succ_mul]
    exact Nat.mul_le_mul_right _ hrest
  have hsone : s * one + one ≤ 2 ^ 23 * one := by
    rw [← Nat.succ_mul]
    exact Nat.mul_le_mul_right _ hwhole
  have hone := one_pos
  have hnanos : NANOS = 1000000000 := rfl
  have hfrac := round_error (p := f * one) 0 nanos_pos (by
    rw [Nat.pow_zero, Nat.mul_one]
    omega)
  rw [← hx, Nat.pow_zero, Nat.mul_one] at hfrac
  rw [hnanos] at hfrac hfone
  have hsum := round_error (p := s * one + x) 23 Nat.one_pos (by omega)
  rw [← hunits] at hsum
  rw [hns, hnanos]
  omega

/-- A length comes back from seconds as it was. -/
theorem toNanos_asSecs {ns : ℕ} (h : ns < 2 ^ 23 * NANOS) : (asSecs ns).toNanos = ns := by
  obtain ⟨habove, hbelow⟩ := asSecs_error h
  have hone := one_pos
  have hnanos : NANOS = 1000000000 := rfl
  rw [toNanos, Nat.mul_comm]
  rw [Nat.mul_comm ns, hnanos] at habove hbelow
  refine nearest_eq ?_ ?_
  · rw [hnanos]
    omega
  · rw [hnanos]
    omega

/-- The number of seconds is that of `ns` nanoseconds, or up to `m` of them off. -/
structure Near (x : F64) (ns m : ℕ) : Prop where
  above : NANOS * x.units ≤ (ns + m) * one
  below : ns * one ≤ NANOS * x.units + m * one

theorem Near.zero : Near (ofNat 0) 0 0 := by
  have hzero : (ofNat 0).units = 0 := by rw [ofNat_units (by omega), Nat.zero_mul]
  constructor <;> rw [hzero] <;> omega

/-- The length and the sum are rounded, both by less than half a nanosecond. -/
theorem Near.add {x : F64} {ns m d : ℕ} (h : Near x ns m) (hlt : ns + m + d + 1 < 2 ^ 23 * NANOS) :
    Near (x.add (asSecs d)) (ns + d) (m + 1) := by
  obtain ⟨habove, hbelow⟩ := h
  have hnanos : NANOS = 1000000000 := rfl
  have hd := asSecs_error (show d < 2 ^ 23 * NANOS by omega)
  have hroom : (ns + m + d + 1) * one ≤ 2 ^ 23 * NANOS * one := Nat.mul_le_mul_right _ hlt.le
  have hone := one_pos
  rw [Nat.add_mul] at habove
  rw [Nat.add_mul, Nat.add_mul, Nat.add_mul, Nat.one_mul] at hroom
  rw [hnanos] at hd habove hbelow hroom
  have hadd := round_error (p := x.units + (asSecs d).units) 23 Nat.one_pos (by omega)
  have hunits : (x.add (asSecs d)).units = round (x.units + (asSecs d).units) 1 := rfl
  rw [← hunits] at hadd
  constructor
  · rw [Nat.add_mul, Nat.add_mul, Nat.add_mul, Nat.one_mul, hnanos]
    omega
  · rw [Nat.add_mul, Nat.add_mul, Nat.one_mul, hnanos]
    omega

theorem Near.foldl {x : F64} {ns m : ℕ} (h : Near x ns m) {lengths : List ℕ}
    (hlt : ns + m + lengths.sum + lengths.length < 2 ^ 23 * NANOS) :
    Near (lengths.foldl (fun total d => total.add (asSecs d)) x) (ns + lengths.sum)
      (m + lengths.length) := by
  induction lengths generalizing x ns m with
  | nil => exact h
  | cons d lengths ih =>
    rw [List.sum_cons, List.length_cons] at hlt ⊢
    rw [List.foldl_cons, ← Nat.add_assoc, Nat.add_comm lengths.length, ← Nat.add_assoc]
    exact ih (h.add (by omega)) (by omega)

theorem Near.toNanos {x : F64} {ns m : ℕ} (h : Near x ns m) :
    x.toNanos ≤ ns + m ∧ ns ≤ x.toNanos + m := by
  obtain ⟨habove, hbelow⟩ := h
  obtain ⟨hhigh, hlow⟩ := nearest_bounds (x.units * NANOS) one_pos
  change 2 * (one * x.toNanos) ≤ _ at hhigh
  change _ ≤ 2 * (one * x.toNanos) + one at hlow
  rw [Nat.mul_comm NANOS] at habove hbelow
  have hone := one_pos
  constructor
  · by_contra hmore
    have hmul := Nat.mul_le_mul_left one (Nat.succ_le_of_lt (not_le.mp hmore))
    rw [Nat.mul_succ, Nat.mul_comm one] at hmul
    omega
  · by_contra hless
    have hmul := Nat.mul_le_mul_left one (Nat.succ_le_of_lt (not_le.mp hless))
    rw [Nat.mul_succ, Nat.mul_add, Nat.mul_comm one m, Nat.mul_comm one ns] at hmul
    omega

/-- Added up as seconds, lengths come out within a nanosecond for each of them. -/
theorem totalSecs_near {lengths : List ℕ} (h : lengths.sum + lengths.length < 2 ^ 23 * NANOS) :
    (totalSecs lengths).toNanos ≤ lengths.sum + lengths.length ∧
      lengths.sum ≤ (totalSecs lengths).toNanos + lengths.length := by
  have htotal : Near (totalSecs lengths) (0 + lengths.sum) (0 + lengths.length) :=
    Near.zero.foldl (by omega)
  have hnear := htotal.toNanos
  rwa [Nat.zero_add, Nat.zero_add] at hnear

end F64

end EtvStation.Lib
