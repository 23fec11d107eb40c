import Mathlib.Logic.Function.Basic
import Mathlib.Tactic.IntervalCases

/-!
# Byte stores

A byte store maps addresses of `w` bits to bytes.  Words of 32 bits are four bytes, the lowest
first.  Every lemma about a word at `a` asks that its four bytes do not run past the last address.
-/

namespace ByteStore

variable {w : ℕ}

/-- A byte for every address. -/
abbrev Store (w : ℕ) := BitVec w → BitVec 8

/-- Byte `i` of a word, counted from the low end. -/
def byteOf (v : BitVec 32) (i : ℕ) : BitVec 8 := v.extractLsb' (8 * i) 8

/-- The word in the four bytes at `a`. -/
def readWord (m : Store w) (a : BitVec w) : BitVec 32 :=
  (m (a + 3#w) ++ m (a + 2#w) ++ m (a + 1#w) ++ m a : BitVec (8 + 8 + 8 + 8))

def writeByte (m : Store w) (a : BitVec w) (b : BitVec 8) : Store w := Function.update m a b

/-- The store after the four bytes of `v` were written at `a`, the lowest first. -/
def writeWord (m : Store w) (a : BitVec w) (v : BitVec 32) : Store w :=
  writeByte (writeByte (writeByte (writeByte m a (byteOf v 0)) (a + 1#w) (byteOf v 1))
    (a + 2#w) (byteOf v 2)) (a + 3#w) (byteOf v 3)

/-- The store with zeros in the `n` bytes from `a` on. -/
def zeroFill (m : Store w) (a : BitVec w) (n : ℕ) : Store w :=
  fun x => if a.toNat ≤ x.toNat ∧ x.toNat < a.toNat + n then 0 else m x

/-- The store after the words `vs 0 .. vs (n - 1)` were written one behind the other from `a` on. -/
def writeWords (m : Store w) (a : BitVec w) (vs : ℕ → BitVec 32) : ℕ → Store w
  | 0 => m
  | n + 1 => writeWord (writeWords m a vs n) (a + BitVec.ofNat w (4 * n)) (vs n)

theorem word_of_bytes (v : BitVec 32) :
    (byteOf v 3 ++ byteOf v 2 ++ byteOf v 1 ++ byteOf v 0 : BitVec (8 + 8 + 8 + 8)) = v := by
  apply BitVec.eq_of_getLsbD_eq
  intro i hi
  simp only [byteOf, BitVec.getLsbD_append, BitVec.getLsbD_extractLsb']
  split_ifs <;> grind

theorem toNat_small {i : ℕ} (h : i < 2 ^ w) : (BitVec.ofNat w i).toNat = i := by
  rw [BitVec.toNat_ofNat, Nat.mod_eq_of_lt h]

theorem toNat_offset {a : BitVec w} {i : ℕ} (h : a.toNat + i < 2 ^ w) :
    (a + BitVec.ofNat w i).toNat = a.toNat + i := by
  rw [BitVec.toNat_add, toNat_small (by omega), Nat.mod_eq_of_lt h]

theorem ofNat_succ (i : ℕ) : BitVec.ofNat w i + 1 = BitVec.ofNat w (i + 1) := by
  rw [BitVec.ofNat_add]
  rfl

theorem offset_offset (a : BitVec w) (i j : ℕ) :
    a + BitVec.ofNat w i + BitVec.ofNat w j = a + BitVec.ofNat w (i + j) := by
  rw [BitVec.add_assoc, BitVec.ofNat_add]

theorem offset_succ (a : BitVec w) (i : ℕ) :
    a + BitVec.ofNat w i + 1 = a + BitVec.ofNat w (i + 1) := by
  rw [BitVec.add_assoc, ofNat_succ]

theorem writeByte_self (m : Store w) (a : BitVec w) (b : BitVec 8) : writeByte m a b a = b :=
  Function.update_self ..

theorem writeByte_of_ne {m : Store w} {a x : BitVec w} (b : BitVec 8) (h : x ≠ a) :
    writeByte m a b x = m x :=
  Function.update_of_ne h ..

/-- Reading a word depends on its four bytes only, also where they run past the last address. -/
theorem readWord_congr_offset {m m' : Store w} {a : BitVec w}
    (h : ∀ i < 4, m' (a + BitVec.ofNat w i) = m (a + BitVec.ofNat w i)) :
    readWord m' a = readWord m a := by
  have h0 : m' a = m a := by
    have := h 0 (by omega)
    rwa [BitVec.add_zero] at this
  unfold readWord
  rw [h0]
  exact congrArg₂ _ (congrArg₂ _ (congrArg₂ _ (h 3 (by omega)) (h 2 (by omega)))
    (h 1 (by omega))) rfl

theorem readWord_congr {m m' : Store w} {a : BitVec w} (bound : a.toNat + 4 ≤ 2 ^ w)
    (h : ∀ x : BitVec w, a.toNat ≤ x.toNat → x.toNat < a.toNat + 4 → m' x = m x) :
    readWord m' a = readWord m a :=
  readWord_congr_offset fun i hi => by
    have := toNat_offset (a := a) (i := i) (by omega)
    exact h _ (by omega) (by omega)

theorem readWord_zero {m : Store w} {a : BitVec w} (bound : a.toNat + 4 ≤ 2 ^ w)
    (h : ∀ x : BitVec w, a.toNat ≤ x.toNat → x.toNat < a.toNat + 4 → m x = 0) :
    readWord m a = 0 :=
  (readWord_congr (m := fun _ => 0) bound h).trans (by simp [readWord])

/-- A word write changes no byte outside its four. -/
theorem writeWord_outside (m : Store w) {a x : BitVec w} (v : BitVec 32)
    (bound : a.toNat + 4 ≤ 2 ^ w) (h : x.toNat < a.toNat ∨ a.toNat + 4 ≤ x.toNat) :
    writeWord m a v x = m x := by
  have apart (i : ℕ) (hi : i < 4) : x ≠ a + BitVec.ofNat w i := by
    rintro rfl
    rw [toNat_offset (by omega)] at h
    omega
  have h0 : x ≠ a := by
    rintro rfl
    omega
  unfold writeWord
  rw [writeByte_of_ne _ (apart 3 (by omega)), writeByte_of_ne _ (apart 2 (by omega)),
    writeByte_of_ne _ (apart 1 (by omega)), writeByte_of_ne _ h0]

/-- Words written one over the other change no byte outside them. -/
theorem foldr_writeWord_outside (m : Store w) {ws : List (BitVec w × BitVec 32)} {x : BitVec w}
    (h : ∀ v ∈ ws, v.1.toNat + 4 ≤ 2 ^ w ∧ (x.toNat < v.1.toNat ∨ v.1.toNat + 4 ≤ x.toNat)) :
    ws.foldr (fun v m => writeWord m v.1 v.2) m x = m x := by
  induction ws with
  | nil => rfl
  | cons v ws ih =>
    obtain ⟨⟨bound, apart⟩, rest⟩ := List.forall_mem_cons.1 h
    exact (writeWord_outside _ v.2 bound apart).trans (ih rest)

/-- A written word is read back, also where its bytes run past the last address. -/
theorem readWord_writeWord_same (m : Store w) (a : BitVec w) (v : BitVec 32) (four : 4 ≤ 2 ^ w) :
    readWord (writeWord m a v) a = v := by
  have apart (i j : ℕ) (hi : i < 4) (hj : j < 4) (h : i ≠ j) :
      a + BitVec.ofNat w i ≠ a + BitVec.ofNat w j := by
    intro e
    have := congrArg BitVec.toNat ((BitVec.add_right_inj a).1 e)
    rw [toNat_small (by omega), toNat_small (by omega)] at this
    exact h this
  have base (j : ℕ) (hj : j < 4) (h : j ≠ 0) : a ≠ a + BitVec.ofNat w j := by
    have := apart 0 j (by omega) hj h.symm
    rwa [BitVec.add_zero] at this
  have b3 : writeWord m a v (a + 3#w) = byteOf v 3 := writeByte_self ..
  have b2 : writeWord m a v (a + 2#w) = byteOf v 2 := by
    rw [writeWord, writeByte_of_ne _ (apart 2 3 (by omega) (by omega) (by omega)), writeByte_self]
  have b1 : writeWord m a v (a + 1#w) = byteOf v 1 := by
    rw [writeWord, writeByte_of_ne _ (apart 1 3 (by omega) (by omega) (by omega)),
      writeByte_of_ne _ (apart 1 2 (by omega) (by omega) (by omega)), writeByte_self]
  have b0 : writeWord m a v a = byteOf v 0 := by
    rw [writeWord, writeByte_of_ne _ (base 3 (by omega) (by omega)),
      writeByte_of_ne _ (base 2 (by omega) (by omega)),
      writeByte_of_ne _ (base 1 (by omega) (by omega)), writeByte_self]
  unfold readWord
  rw [b3, b2, b1, b0]
  exact word_of_bytes v

theorem readWord_writeWord_self (m : Store w) {a : BitVec w} (v : BitVec 32)
    (bound : a.toNat + 4 ≤ 2 ^ w) : readWord (writeWord m a v) a = v :=
  readWord_writeWord_same m a v (by omega)

/-- Two words that share no byte do not influence each other. -/
theorem readWord_writeWord_disjoint (m : Store w) {a b : BitVec w} (v : BitVec 32)
    (ha : a.toNat + 4 ≤ 2 ^ w) (hb : b.toNat + 4 ≤ 2 ^ w)
    (h : b.toNat + 4 ≤ a.toNat ∨ a.toNat + 4 ≤ b.toNat) :
    readWord (writeWord m a v) b = readWord m b :=
  readWord_congr hb fun _ _ _ => writeWord_outside m v ha (by omega)

theorem writeWords_outside (m : Store w) {a x : BitVec w} (vs : ℕ → BitVec 32) {n : ℕ}
    (bound : a.toNat + 4 * n ≤ 2 ^ w) (h : x.toNat < a.toNat ∨ a.toNat + 4 * n ≤ x.toNat) :
    writeWords m a vs n x = m x := by
  induction n with
  | zero => rfl
  | succ n ih =>
    have e := toNat_offset (a := a) (i := 4 * n) (by omega)
    rw [writeWords, writeWord_outside _ _ (by omega) (by omega)]
    exact ih (by omega) (by omega)

theorem readWord_writeWords (m : Store w) {a : BitVec w} (vs : ℕ → BitVec 32) {n i : ℕ}
    (bound : a.toNat + 4 * n ≤ 2 ^ w) (hi : i < n) :
    readWord (writeWords m a vs n) (a + BitVec.ofNat w (4 * i)) = vs i := by
  induction n with
  | zero => exact absurd hi (Nat.not_lt_zero _)
  | succ n ih =>
    have en := toNat_offset (a := a) (i := 4 * n) (by omega)
    have ei := toNat_offset (a := a) (i := 4 * i) (by omega)
    rw [writeWords]
    rcases Nat.lt_succ_iff_lt_or_eq.1 hi with lt | rfl
    · rw [readWord_writeWord_disjoint _ _ (by omega) (by omega) (by omega)]
      exact ih (by omega) lt
    · exact readWord_writeWord_self _ _ (by omega)

theorem zeroFill_outside (m : Store w) {a x : BitVec w} {n : ℕ}
    (h : x.toNat < a.toNat ∨ a.toNat + n ≤ x.toNat) : zeroFill m a n x = m x :=
  if_neg (by omega)

theorem zeroFill_inside (m : Store w) {a x : BitVec w} {n : ℕ} (h : a.toNat ≤ x.toNat)
    (h' : x.toNat < a.toNat + n) : zeroFill m a n x = 0 :=
  if_pos ⟨h, h'⟩

theorem zeroFill_succ (m : Store w) {a : BitVec w} {n : ℕ} (bound : a.toNat + n < 2 ^ w) :
    zeroFill (writeByte m a 0) (a + 1#w) n = zeroFill m a (n + 1) := by
  funext x
  rcases Nat.eq_zero_or_pos n with rfl | pos
  · by_cases h : x = a
    · rw [h, zeroFill_outside _ (by omega), writeByte_self, zeroFill_inside _ le_rfl (by omega)]
    · have : x.toNat ≠ a.toNat := fun e => h (BitVec.eq_of_toNat_eq e)
      rw [zeroFill_outside _ (by omega), writeByte_of_ne _ h, zeroFill_outside _ (by omega)]
  · have e := toNat_offset (a := a) (i := 1) (by omega)
    by_cases h : x = a
    · rw [h, zeroFill_outside _ (by omega), writeByte_self, zeroFill_inside _ le_rfl (by omega)]
    · have : x.toNat ≠ a.toNat := fun e => h (BitVec.eq_of_toNat_eq e)
      unfold zeroFill
      rw [writeByte_of_ne _ h]
      exact if_congr (by omega) rfl rfl

theorem zeroFill_zero (m : Store w) (a : BitVec w) : zeroFill m a 0 = m :=
  funext fun _ => zeroFill_outside m (by omega)

end ByteStore
