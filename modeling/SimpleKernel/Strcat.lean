import SimpleKernel.Buffer
import SimpleKernel.Mstring
import SimpleKernel.PmmInit

/-!
# `strcat`

`memcpy` and `strcat` of `mstring.c`.  `strcat` copies the characters of its second string over the
buffer from the NUL of the first one on, but no NUL behind them: the result ends at the next NUL
that the buffer happens to hold there.
-/

namespace SimpleKernel

open ByteStore ProgramLogic

/-- `memcpy`, one byte after the other. -/
def memcpy (dest src : Word) : ℕ → Kernel Unit
  | 0 => pure ()
  | len + 1 => do
    store8 dest (← load8 src)
    memcpy (dest + 1) (src + 1) len

def strcat (dest src : Word) : Kernel Word := do
  let lLen ← strlen (charsAt dest)
  let rLen ← strlen (charsAt src)
  memcpy (dest + BitVec.ofNat 32 lLen) src rLen
  return dest

/-! ## `memcpy` -/

section Memcpy

variable {E : Stop → Machine → Prop} {m m' : Machine} {p q : Word} {f : ℕ → Byte} {k n : ℕ}
  {t : List Byte}

theorem MissesBuffer.head (misses : MissesBuffer m q (k + 1) p n) :
    ∃ a ∉ bytesBehind m p n, StaysAt m (bytesBehind m p n) q a := by
  obtain ⟨a, out, stays⟩ := misses 0 (Nat.succ_pos k)
  rw [BitVec.add_zero] at stays
  exact ⟨a, out, stays⟩

theorem MissesBuffer.tail (misses : MissesBuffer m q (k + 1) p n) :
    MissesBuffer m (q + 1) k p n := by
  intro i hi
  rw [next_offset]
  exact misses (i + 1) (by omega)

/-- Copying into a buffer from outside of it. -/
theorem Filled.memcpy (filled : Filled m p n f m') (buffer : Buffer m p n)
    (room : k + t.length ≤ n) (misses : MissesBuffer m q t.length p n)
    (source : ∀ i < t.length, view m (q + BitVec.ofNat 32 i) = t.getD i 0)
    {Q : Unit → Machine → Prop} (hQ : ∀ m'', Filled m p n (overwrite f k t) m'' → Q () m'') :
    WP (memcpy (p + BitVec.ofNat 32 k) q t.length) E Q m' := by
  induction t generalizing f k q m' with
  | nil =>
    rw [overwrite_nil] at hQ
    exact hQ _ filled
  | cons b t ih =>
    rw [List.length_cons] at room misses source
    obtain ⟨a, out, stays⟩ := misses.head
    have first : view m q = b := by
      have first := source 0 (Nat.succ_pos _)
      rwa [BitVec.add_zero] at first
    simp only [List.length_cons, SimpleKernel.memcpy, wp_bind]
    refine filled.load8_outside stays out ?_
    rw [first, offset_succ]
    refine filled.store8 buffer (by omega) fun m'' filled' => ?_
    refine ih filled' (by omega) misses.tail (fun i hi => ?_) fun u hu => hQ u ?_
    · rw [next_offset]
      exact source (i + 1) (by omega)
    · rwa [overwrite_cons] at hu

end Memcpy

/-! ## Strings and contents -/

/-- A string is known from its bytes, with a NUL behind the last one. -/
theorem spells_iff_contents {m : Machine} {p : Word} {s : List Byte} :
    Spells (view m) p s ↔ ∀ j ≤ s.length, contents m p j = s.getD j 0 := by
  refine ⟨fun spells j hj => spells.getD hj, fun bytes => ?_⟩
  have first := bytes 0 (Nat.zero_le _)
  rw [contents, BitVec.add_zero] at first
  induction s generalizing p with
  | nil => exact first
  | cons b s ih =>
    have rest (j : ℕ) (hj : j ≤ s.length) : contents m (p + 1) j = s.getD j 0 := by
      rw [contents, next_offset]
      exact bytes (j + 1) (by simpa using hj)
    have second := rest 0 (Nat.zero_le _)
    rw [contents, BitVec.add_zero] at second
    exact ⟨first, ih rest second⟩

/-! ## `strcat` -/

/-- What `strcat` may rely on: the buffer holds `s` and has room for `t` and a NUL, and `t` lies
elsewhere. -/
structure Joinable (m : Machine) (dest : Word) (n : ℕ) (s : List Byte) (src : Word)
    (t : List Byte) : Prop where
  buffer : Buffer m dest n
  room : s.length + t.length < n
  old : Spells (view m) dest s
  oldNoNul : 0 ∉ s
  new : Spells (view m) src t
  newNoNul : 0 ∉ t
  misses : MissesBuffer m src (t.length + 1) dest n

/-- The buffer holds `s` and `t` as one string, and behind this string what it held before. -/
structure Joined (m : Machine) (dest : Word) (n : ℕ) (s t : List Byte) (m' : Machine) : Prop where
  spells : Spells (view m') dest (s ++ t)
  length : Returns (strlen (charsAt dest)) m' (s.length + t.length) m'
  behind : ∀ i, s.length + t.length < i → i < n → contents m' dest i = contents m dest i

section Strcat

variable {m : Machine} {dest src : Word} {n : ℕ} {s t u : List Byte}

namespace Joinable

theorem ahead_dest (args : Joinable m dest n s src t) : Ahead (charsAt dest) m 0 s := by
  refine ahead_charsAt args.oldNoNul args.old fun j hj => ?_
  have room := args.room
  obtain ⟨a, stays⟩ := args.buffer.stays j (by omega)
  exact stays.mapped

theorem ahead_src (args : Joinable m dest n s src t) : Ahead (charsAt src) m 0 t := by
  refine ahead_charsAt args.newNoNul args.new fun j hj => ?_
  obtain ⟨a, -, stays⟩ := args.misses j (by omega)
  exact stays.mapped

/-- `strcat` puts the characters of `t` into the buffer from the end of `s` on and changes nothing
else. -/
theorem returns (args : Joinable m dest n s src t) : ∃ m', Returns (strcat dest src) m dest m' ∧
    Filled m dest n (overwrite (contents m dest) s.length t) m' := by
  have copy : WP (memcpy (dest + BitVec.ofNat 32 s.length) src t.length) (fun _ _ => False)
      (fun _ m' => Filled m dest n (overwrite (contents m dest) s.length t) m') m :=
    (filled_self m dest n).memcpy args.buffer args.room.le
      (fun i hi => args.misses i (by omega)) (fun i hi => args.new.getD hi.le) fun _ h => h
  obtain ⟨⟨⟩, m', run, filled⟩ := copy.returns
  refine ⟨m', ?_, filled⟩
  refine (strlen_returns args.ahead_dest).bind ((strlen_returns args.ahead_src).bind ?_)
  exact run.bind rfl

end Joinable

/-- The bytes of the buffer spell `s`, `t` and what came up to the next NUL from where `t` ends. -/
theorem overwrite_getD {f : ℕ → Byte} (old : ∀ j < s.length, f j = s.getD j 0)
    (next : ∀ j ≤ u.length, f (s.length + t.length + j) = u.getD j 0) {j : ℕ}
    (hj : j ≤ (s ++ (t ++ u)).length) :
    overwrite f s.length t j = (s ++ (t ++ u)).getD j 0 := by
  rw [List.length_append, List.length_append] at hj
  rcases Nat.lt_or_ge j s.length with inOld | behind
  · rw [overwrite_outside (.inl inOld), List.getD_append _ _ _ _ inOld]
    exact old j inOld
  · obtain ⟨i, rfl⟩ := Nat.exists_eq_add_of_le behind
    rw [List.getD_append_right _ _ _ _ behind, Nat.add_sub_cancel_left]
    rcases Nat.lt_or_ge i t.length with inNew | behind'
    · rw [overwrite_inside inNew, List.getD_append _ _ _ _ inNew]
    · obtain ⟨k, rfl⟩ := Nat.exists_eq_add_of_le behind'
      rw [overwrite_outside (.inr (by omega)), List.getD_append_right _ _ _ _ behind',
        Nat.add_sub_cancel_left, ← Nat.add_assoc]
      exact next k (by omega)

/-- The result runs on to the next NUL of the buffer from where its own ought to be. -/
theorem Joinable.spells (args : Joinable m dest n s src t)
    (next : Spells (view m) (dest + BitVec.ofNat 32 (s.length + t.length)) u)
    (inside : s.length + t.length + u.length < n) {m' : Machine}
    (filled : Filled m dest n (overwrite (contents m dest) s.length t) m') :
    Spells (view m') dest (s ++ (t ++ u)) := by
  have old := spells_iff_contents.1 args.old
  rw [spells_iff_contents] at next ⊢
  intro j hj
  have short : j < n := by
    rw [List.length_append, List.length_append] at hj
    omega
  rw [filled.inside j short]
  refine overwrite_getD (fun i hi => old i hi.le) (fun i hi => ?_) hj
  rw [← next i hi, contents, contents, offset_offset]

/-- The result ends where it should exactly if there was a NUL already. -/
theorem Joinable.joined_iff (args : Joinable m dest n s src t) {m' : Machine}
    (filled : Filled m dest n (overwrite (contents m dest) s.length t) m') :
    Joined m dest n s t m' ↔ contents m dest (s.length + t.length) = 0 := by
  have room := args.room
  have same (j : ℕ) (behind : s.length + t.length ≤ j) (hj : j < n) :
      contents m' dest j = contents m dest j := by
    rw [filled.inside j hj, overwrite_outside (.inr behind)]
  refine ⟨fun joined => ?_, fun stop => ?_⟩
  · rw [← same _ le_rfl room]
    have last := spells_iff_contents.1 joined.spells (s ++ t).length le_rfl
    rwa [List.getD_eq_default _ _ le_rfl, List.length_append] at last
  · have spells := args.spells (u := []) stop room filled
    rw [List.append_nil] at spells
    have noNul : 0 ∉ s ++ t := by
      rw [List.mem_append, not_or]
      exact ⟨args.oldNoNul, args.newNoNul⟩
    have ahead : Ahead (charsAt dest) m' 0 (s ++ t) := by
      refine ahead_charsAt noNul spells fun j hj => ?_
      rw [List.length_append] at hj
      obtain ⟨a, stays⟩ := args.buffer.stays j (by omega)
      rw [filled.translate stays]
      exact Option.some_ne_none _
    have length := strlen_returns ahead
    rw [List.length_append] at length
    exact ⟨spells, length, fun i hi hn => same i hi.le hn⟩

/-- `strcat` yields a terminated concatenation exactly if the buffer has a NUL already where the
last one of the concatenation belongs.  For an empty `t` this is the NUL of `s`. -/
theorem strcat_joined_iff (args : Joinable m dest n s src t) :
    (∃ m', Returns (strcat dest src) m dest m' ∧ Joined m dest n s t m') ↔
      contents m dest (s.length + t.length) = 0 := by
  obtain ⟨m₁, run, filled⟩ := args.returns
  refine ⟨fun joins => ?_, fun stop => ⟨m₁, run, (args.joined_iff filled).2 stop⟩⟩
  obtain ⟨m', run', joined⟩ := joins
  obtain rfl : m₁ = m' := congrArg Prod.snd (run.symm.trans run')
  exact (args.joined_iff filled).1 joined

end Strcat

/-! ## A fresh and a reused buffer -/

/-- A buffer of eight bytes at 2 MB, and the string `"b"` behind it. -/
def catMemory (buffer : List Byte) : Store 32 :=
  fun a => (buffer ++ [0x62, 0]).getD (a - 0x200000).toNat 0

theorem joinable_booted {mem : Store 32} {m : Machine} (booted : Booted mem m)
    (old : Spells mem 0x200000 [0x61]) (new : Spells mem 0x200008 [0x62]) :
    Joinable m 0x200000 8 [0x61] 0x200008 [0x62] := by
  have seen {p : Word} {b : Byte} (lo : 0x200000 ≤ p.toNat) (hi : p.toNat ≤ 0x200008)
      (spells : Spells mem p [b]) : Spells (view m) p [b] := by
    have next : (p + 1).toNat = p.toNat + 1 := toNat_offset (i := 1) (by omega)
    refine ⟨?_, ?_⟩
    · rw [booted.view_eq (by omega) (by omega)]
      exact spells.1
    · rw [Spells, booted.view_eq (by omega) (by omega)]
      exact spells.2
  exact {
    buffer := booted.temp.buffer (by decide) (by decide)
    room := by decide
    old := seen (by decide) (by decide) old
    oldNoNul := by decide
    new := seen (by decide) (by decide) new
    newNoNul := by decide
    misses := booted.temp.missesBuffer (by decide) (by decide) (by decide) (by decide) }

/-- In a zeroed buffer the strings are joined. -/
theorem strcat_joined_fresh : ∃ m, Booted (catMemory [0x61, 0, 0, 0, 0, 0, 0, 0]) m ∧
    ∃ m', Returns (strcat 0x200000 0x200008) m 0x200000 m' ∧
      Joined m 0x200000 8 [0x61] [0x62] m' := by
  obtain ⟨m, booted⟩ := exists_booted (catMemory [0x61, 0, 0, 0, 0, 0, 0, 0])
  refine ⟨m, booted, (strcat_joined_iff (joinable_booted booted (by decide) (by decide))).2 ?_⟩
  exact (booted.view_eq (by decide) (by decide)).trans (by decide)

/-- With `"xy"` behind the NUL of `"a"`, appending `"b"` gives `"abxy"`. -/
theorem strcat_reused : ∃ m m', Booted (catMemory [0x61, 0, 0x78, 0x79, 0, 0, 0, 0]) m ∧
    Joinable m 0x200000 8 [0x61] 0x200008 [0x62] ∧
    Returns (strcat 0x200000 0x200008) m 0x200000 m' ∧
    Spells (view m') 0x200000 [0x61, 0x62, 0x78, 0x79] ∧
    ¬ Joined m 0x200000 8 [0x61] [0x62] m' := by
  obtain ⟨m, booted⟩ := exists_booted (catMemory [0x61, 0, 0x78, 0x79, 0, 0, 0, 0])
  have args := joinable_booted booted (by decide) (by decide)
  obtain ⟨m', run, filled⟩ := args.returns
  have third : view m 0x200002 = 0x78 :=
    (booted.view_eq (by decide) (by decide)).trans (by decide)
  have fourth : view m 0x200003 = 0x79 :=
    (booted.view_eq (by decide) (by decide)).trans (by decide)
  have fifth : view m 0x200004 = 0 :=
    (booted.view_eq (by decide) (by decide)).trans (by decide)
  refine ⟨m, m', booted, args, run, ?_, fun joined => ?_⟩
  · exact args.spells (u := [0x78, 0x79]) ⟨third, fourth, fifth⟩ (by decide) filled
  · have stop := (args.joined_iff filled).1 joined
    exact absurd (third.symm.trans stop) (by decide)

theorem not_strcat_joined : ¬ ∀ (m : Machine) (dest src : Word) (n : ℕ) (s t : List Byte),
    Joinable m dest n s src t →
      ∃ m', Returns (strcat dest src) m dest m' ∧ Joined m dest n s t m' := by
  intro claim
  obtain ⟨m, m', -, args, run, -, unterminated⟩ := strcat_reused
  obtain ⟨m₁, run', joined⟩ := claim _ _ _ _ _ _ args
  obtain rfl : m' = m₁ := congrArg Prod.snd (run.symm.trans run')
  exact unterminated joined

end SimpleKernel
