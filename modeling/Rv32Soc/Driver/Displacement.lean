import Rv32Soc.Cache.CachedMem

/-!
# Cache maintenance by displacement

`cache_rv32_5stage.c`: the data cache has no maintenance instructions, so a range is flushed
by loads of a buffer of the driver. The buffer is as large as the cache and aligned to it, so
that its line number `set` falls in the set `set`, and a load of it puts whatever is there
back into memory.
-/

namespace Rv32Soc

namespace DcacheBram

variable {IDX : ℕ}

/-- `CONFIG_DCACHE_LINE_SIZE`: a line of `dcache_bram`. -/
def DC_LINE : ℕ := 16

/-- The number of sets, a power of two as the driver asserts. -/
def DC_SETS (IDX : ℕ) : ℕ := 2 ^ IDX

def DC_BYTES (IDX : ℕ) : ℕ := DC_SETS IDX * DC_LINE

def ROUND_DOWN (x align : Word) : Word := x / align * align

/-- `displace_buf[set * DC_LINE]`. -/
def displaceAddr (displaceBuf set : Word) : Word := displaceBuf + set * BitVec.ofNat 32 DC_LINE

/-- The loop of `displace_range`, and what it loads. It need not end: the address may pass the last
    line. -/
def displaceLoop (IDX : ℕ) (displaceBuf : Word) : ℕ → Word → Word → Option (List Word)
  | 0, _, _ => none
  | fuel + 1, a, stop =>
    if a < stop then
      let set := (a / BitVec.ofNat 32 DC_LINE) &&& (BitVec.ofNat 32 (DC_SETS IDX) - 1)
      (displaceLoop IDX displaceBuf fuel (a + BitVec.ofNat 32 DC_LINE) stop).map
        (displaceAddr displaceBuf set :: ·)
    else some []

/-- What `displace_range` loads. -/
def displaceRange (IDX : ℕ) (displaceBuf : Word) (fuel : ℕ) (addr size : Word) : Option (List Word) :=
  displaceLoop IDX displaceBuf fuel (ROUND_DOWN addr (BitVec.ofNat 32 DC_LINE)) (addr + size)

/-- What `displace_all` loads. -/
def displaceAll (IDX : ℕ) (displaceBuf : Word) : List Word :=
  (List.range (DC_SETS IDX)).map fun set => displaceAddr displaceBuf (BitVec.ofNat 32 set)

/-- Loads one after another. -/
def CachedMem.loads (s : CachedMem IDX) (l : List Word) : CachedMem IDX := l.foldl CachedMem.load s

/-- The buffer is aligned to the whole cache. -/
def BufAligned (IDX : ℕ) (displaceBuf : Word) : Prop := displaceBuf.toNat % DC_BYTES IDX = 0

instance (displaceBuf : Word) : Decidable (BufAligned IDX displaceBuf) :=
  inferInstanceAs (Decidable (_ = _))

/-- The address `b` is in the buffer. -/
def InBuf (IDX : ℕ) (displaceBuf b : Word) : Prop :=
  displaceBuf.toNat ≤ b.toNat ∧ b.toNat < displaceBuf.toNat + DC_BYTES IDX

/-- The address `b` is in the range `[addr, addr + size)`. -/
def InRange (addr size b : Word) : Prop := addr.toNat ≤ b.toNat ∧ b.toNat < addr.toNat + size.toNat

/-! ## What loads of the buffer do -/

/-- The sets `X` have been taken by lines of the tag `t`, and nothing else has changed. -/
structure Displaced (t : BitVec (28 - IDX)) (X : Set (BitVec IDX)) (s s' : CachedMem IDX) : Prop where
  tagv : ∀ x ∈ X, s'.tagv x = ⟨true, t⟩
  frame : ∀ x ∉ X, s'.tagv x = s.tagv x ∧ s'.dirty x = s.dirty x ∧ ∀ k, s'.d k x = s.d k x
  latest : s'.latest = s.latest

variable {t : BitVec (28 - IDX)} {X Y : Set (BitVec IDX)} {s s' s'' : CachedMem IDX}
  {a b addr size displaceBuf : Word}

theorem Displaced.trans (h : Displaced t X s s') (h' : Displaced t Y s' s'') :
    Displaced t (X ∪ Y) s s'' where
  tagv x hx := by
    by_cases hy : x ∈ Y
    · exact h'.tagv x hy
    · exact (h'.frame x hy).1.trans (h.tagv x (hx.resolve_right hy))
  frame x hx := by
    rw [Set.mem_union, not_or] at hx
    obtain ⟨ht, hd, hk⟩ := h.frame x hx.1
    obtain ⟨ht', hd', hk'⟩ := h'.frame x hx.2
    exact ⟨ht'.trans ht, hd'.trans hd, fun k => (hk' k).trans (hk k)⟩
  latest := h'.latest.trans h.latest

theorem displaced_load (hn : IDX ≤ 28) : Displaced (tagOf IDX a) {idxOf IDX a} s (s.load a) where
  tagv _ hx := CachedMem.tagv_load.trans (if_pos hx)
  frame _ hx := ⟨CachedMem.tagv_load.trans (if_neg hx), CachedMem.dirty_load_of_ne hx,
    CachedMem.d_load_of_ne hx⟩
  latest := CachedMem.latest_load hn

theorem displaced_loads (hn : IDX ≤ 28) {l : List Word} (htag : ∀ a ∈ l, tagOf IDX a = t) :
    Displaced t {x | ∃ a ∈ l, idxOf IDX a = x} s (s.loads l) := by
  induction l generalizing s with
  | nil => exact ⟨fun _ ⟨_, h, _⟩ => absurd h List.not_mem_nil, fun _ _ =>
      ⟨rfl, rfl, fun _ => rfl⟩, rfl⟩
  | cons a l ih =>
    obtain ⟨ha, hl⟩ := List.forall_mem_cons.1 htag
    have hsets : {x | ∃ b ∈ a :: l, idxOf IDX b = x} = {idxOf IDX a} ∪
        {x | ∃ b ∈ l, idxOf IDX b = x} := by
      ext x
      simp [eq_comm]
    rw [hsets]
    exact (ha ▸ displaced_load hn).trans (ih hl)

/-- What is not of the buffer is no longer in a set that is taken, and up to date below. -/
theorem Displaced.lower_eq (h : Displaced t X s s') (hidx : idxOf IDX b ∈ X) (htag : tagOf IDX b ≠ t) :
    ¬s'.Holds b ∧ s'.lower b = s.latest b := by
  have hnot : ¬s'.Holds b := fun hb => by
    rw [CachedMem.Holds, h.tagv _ hidx] at hb
    exact htag hb.2.symm
  exact ⟨hnot, (CachedMem.lower_eq_latest fun hd => hnot hd.1).trans (congrFun h.latest b)⟩

/-! ## Where the buffer is -/

theorem two_pow_32_eq (hn : IDX ≤ 28) : 2 ^ 32 = DC_BYTES IDX * 2 ^ (28 - IDX) := by
  rw [DC_BYTES, DC_SETS, DC_LINE, Nat.mul_right_comm, ← Nat.pow_add, Nat.add_sub_cancel' hn]
  rfl

theorem dcBytes_eq (IDX : ℕ) : DC_BYTES IDX = 16 * 2 ^ IDX := Nat.mul_comm _ _

theorem dcBytes_pos (IDX : ℕ) : 0 < DC_BYTES IDX := by
  rw [dcBytes_eq]
  exact Nat.mul_pos (by decide) (Nat.two_pow_pos IDX)

theorem tagOf_eq_iff_inBuf (hn : IDX ≤ 28) (hbuf : BufAligned IDX displaceBuf) :
    tagOf IDX b = tagOf IDX displaceBuf ↔ InBuf IDX displaceBuf b := by
  have hpos := dcBytes_pos IDX
  obtain ⟨q, hq⟩ := Nat.dvd_of_mod_eq_zero hbuf
  rw [← BitVec.toNat_inj, toNat_tagOf hn, toNat_tagOf hn, ← dcBytes_eq, InBuf, hq,
    Nat.mul_div_cancel_left _ hpos, Nat.div_eq_iff hpos, Nat.mul_comm q]
  omega

/-- The line number `set` of the buffer is one of the set `set`. -/
theorem parts_displaceAddr (hn : IDX ≤ 28) (hbuf : BufAligned IDX displaceBuf) {set : Word}
    (hset : set.toNat < DC_SETS IDX) : tagOf IDX (displaceAddr displaceBuf set) = tagOf IDX displaceBuf ∧
      (idxOf IDX (displaceAddr displaceBuf set)).toNat = set.toNat := by
  have hpow := two_pow_32_eq hn
  obtain ⟨q, hq⟩ := Nat.dvd_of_mod_eq_zero hbuf
  have hlt := displaceBuf.isLt
  have hroom : displaceBuf.toNat + DC_BYTES IDX ≤ 2 ^ 32 := by
    rw [hpow, hq] at hlt ⊢
    calc DC_BYTES IDX * q + DC_BYTES IDX = DC_BYTES IDX * (q + 1) := (Nat.mul_succ _ _).symm
      _ ≤ DC_BYTES IDX * 2 ^ (28 - IDX) := Nat.mul_le_mul_left _ (Nat.lt_of_mul_lt_mul_left hlt)
  have haddr : (displaceAddr displaceBuf set).toNat = displaceBuf.toNat + set.toNat * 16 := by
    have h16 : set.toNat * 16 < DC_BYTES IDX := by
      rw [DC_BYTES, DC_LINE]
      omega
    rw [displaceAddr, BitVec.toNat_add, BitVec.toNat_mul]
    simp only [DC_LINE, BitVec.toNat_ofNat]
    omega
  have hin : InBuf IDX displaceBuf (displaceAddr displaceBuf set) := by
    rw [InBuf, haddr, DC_BYTES, DC_LINE]
    omega
  refine ⟨(tagOf_eq_iff_inBuf hn hbuf).2 hin, ?_⟩
  rw [toNat_idxOf, haddr, hq, dcBytes_eq, Nat.mul_assoc, Nat.mul_comm set.toNat, ← Nat.mul_add,
    Nat.mul_div_cancel_left _ (by decide), Nat.mul_add_mod]
  exact Nat.mod_eq_of_lt hset

/-! ## The two walks -/

/-- The sets that the bytes from `a` on, and before `stop`, fall in. -/
def setsOf (IDX : ℕ) (a stop : ℕ) : Set (BitVec IDX) :=
  {x | ∃ b : Word, a ≤ b.toNat ∧ b.toNat < stop ∧ idxOf IDX b = x}

theorem idxOf_eq_of_div {a b : Word} (h : a.toNat / 16 = b.toNat / 16) : idxOf IDX a = idxOf IDX b := by
  apply BitVec.eq_of_toNat_eq
  rw [toNat_idxOf, toNat_idxOf, h]

theorem setsOf_of_le {a stop : ℕ} (h : stop ≤ a) : setsOf IDX a stop = ∅ := by
  ext x
  simp only [setsOf, Set.mem_ofPred_eq, Set.mem_empty_iff_false, iff_false]
  rintro ⟨b, hab, hb, -⟩
  omega

/-- The bytes before the next line fall in one set. -/
theorem setsOf_line {a : Word} {stop : ℕ} (ha : a.toNat % 16 = 0) (hlt : a.toNat < stop) :
    setsOf IDX a.toNat stop = {idxOf IDX a} ∪ setsOf IDX (a.toNat + 16) stop := by
  ext x
  constructor
  · rintro ⟨b, hab, hb, rfl⟩
    by_cases hnext : a.toNat + 16 ≤ b.toNat
    · exact .inr ⟨b, hnext, hb, rfl⟩
    · exact .inl (idxOf_eq_of_div (by omega))
  · rintro (rfl | ⟨b, hab, hb, rfl⟩)
    · exact ⟨a, le_rfl, hlt, rfl⟩
    · exact ⟨b, by omega, hb, rfl⟩

/-- The set of `displace_range` is that of the address. -/
theorem toNat_set (hn : IDX ≤ 28) (a : Word) :
    ((a / BitVec.ofNat 32 DC_LINE) &&& (BitVec.ofNat 32 (DC_SETS IDX) - 1)).toNat =
      (idxOf IDX a).toNat := by
  have hpow : 2 ^ IDX ≤ 2 ^ 28 := Nat.pow_le_pow_right (by decide) hn
  have hpos := Nat.two_pow_pos IDX
  have hmask : (BitVec.ofNat 32 (DC_SETS IDX) - 1).toNat = 2 ^ IDX - 1 := by
    rw [BitVec.toNat_sub, BitVec.toNat_ofNat, DC_SETS]
    simp only [BitVec.ofNat_eq_ofNat, BitVec.toNat_ofNat]
    omega
  rw [BitVec.toNat_and, hmask, BitVec.toNat_udiv, Nat.and_two_pow_sub_one_eq_mod, toNat_idxOf]
  rfl

/-- The loads of `l` are of lines of the buffer, one at least for each of the sets `X`, and none for
    another. -/
structure Walks (displaceBuf : Word) (X : Set (BitVec IDX)) (l : List Word) : Prop where
  tag : ∀ a ∈ l, tagOf IDX a = tagOf IDX displaceBuf
  sets : {x | ∃ a ∈ l, idxOf IDX a = x} = X

theorem Walks.displaced (hn : IDX ≤ 28) {l : List Word} (h : Walks displaceBuf X l) :
    Displaced (tagOf IDX displaceBuf) X s (s.loads l) := h.sets ▸ displaced_loads hn h.tag

theorem Walks.nil : Walks displaceBuf (∅ : Set (BitVec IDX)) [] := ⟨nofun, by simp⟩

theorem Walks.append {l l' : List Word} (h : Walks displaceBuf X l) (h' : Walks displaceBuf Y l') :
    Walks displaceBuf (X ∪ Y) (l ++ l') where
  tag a ha := (List.mem_append.1 ha).elim (h.tag a) (h'.tag a)
  sets := by
    rw [← h.sets, ← h'.sets]
    ext x
    simp [or_and_right, exists_or]

theorem walks_displaceAddr (hn : IDX ≤ 28) (hbuf : BufAligned IDX displaceBuf)
    {set : Word} {x : BitVec IDX}
    (hset : set.toNat = x.toNat) : Walks displaceBuf {x} [displaceAddr displaceBuf set] := by
  obtain ⟨htag, hidx⟩ := parts_displaceAddr hn hbuf (show set.toNat < DC_SETS IDX from hset ▸ x.isLt)
  refine ⟨by simpa using htag, ?_⟩
  ext y
  simp [BitVec.eq_of_toNat_eq (hidx.trans hset), eq_comm]

/-- A range whose end, rounded up to a line, is not past the end of the memory. -/
def NoWrap (addr size : Word) : Prop := (addr.toNat + size.toNat + 15) / 16 * 16 < 2 ^ 32

instance : Decidable (NoWrap addr size) := inferInstanceAs (Decidable (_ < _))

section

variable {stop : Word} {fuel : ℕ} {l : List Word}

theorem toNat_add_line (hstop : (stop.toNat + 15) / 16 * 16 < 2 ^ 32) (ha : a.toNat % 16 = 0)
    (hlt : a < stop) :
    (a + BitVec.ofNat 32 DC_LINE).toNat = a.toNat + 16 := by
  rw [BitVec.lt_def] at hlt
  rw [BitVec.toNat_add, DC_LINE, BitVec.toNat_ofNat]
  omega

/-- The loop ends if the last line does not end at the end of the memory. -/
theorem exists_displaceLoop (hstop : (stop.toNat + 15) / 16 * 16 < 2 ^ 32) (ha : a.toNat % 16 = 0)
    (hfuel : (stop.toNat + 15 - a.toNat) / 16 < fuel) :
      ∃ l, displaceLoop IDX displaceBuf fuel a stop = some l := by
  induction fuel generalizing a with
  | zero => exact absurd hfuel (Nat.not_lt_zero _)
  | succ fuel ih =>
    rw [displaceLoop]
    split_ifs with hlt
    · have hnext := toNat_add_line hstop ha hlt
      rw [BitVec.lt_def] at hlt
      obtain ⟨l, hl⟩ := ih (a := a + BitVec.ofNat 32 DC_LINE) (by omega) (by omega)
      exact ⟨_, by rw [hl, Option.map_some]⟩
    · exact ⟨[], rfl⟩

/-- It walks the sets of all lines from `a` on. -/
theorem walks_of_displaceLoop (hn : IDX ≤ 28) (hbuf : BufAligned IDX displaceBuf)
    (hstop : (stop.toNat + 15) / 16 * 16 < 2 ^ 32) (ha : a.toNat % 16 = 0)
    (h : displaceLoop IDX displaceBuf fuel a stop = some l) :
    Walks displaceBuf (setsOf IDX a.toNat stop.toNat) l := by
  induction fuel generalizing a l with
  | zero => exact absurd h nofun
  | succ fuel ih =>
    rw [displaceLoop] at h
    split_ifs at h with hlt
    · have hnext := toNat_add_line hstop ha hlt
      obtain ⟨l', hl', rfl⟩ := Option.map_eq_some_iff.1 h
      rw [setsOf_line ha (BitVec.lt_def.1 hlt), ← hnext]
      exact (walks_displaceAddr hn hbuf (toNat_set hn a)).append (ih (by omega) hl')
    · obtain rfl : [] = l := Option.some_inj.1 h
      exact setsOf_of_le (Nat.not_lt.1 fun hlt' => hlt (BitVec.lt_def.2 hlt')) ▸ .nil

theorem toNat_roundDown (addr : Word) :
    (ROUND_DOWN addr (BitVec.ofNat 32 DC_LINE)).toNat = addr.toNat / 16 * 16 := by
  have haddr := addr.isLt
  rw [ROUND_DOWN, BitVec.toNat_mul, BitVec.toNat_udiv, DC_LINE, BitVec.toNat_ofNat,
    Nat.mod_eq_of_lt (by decide : 16 < 2 ^ 32)]
  omega

theorem NoWrap.toNat_add (hwrap : NoWrap addr size) : (addr + size).toNat = addr.toNat + size.toNat := by
  rw [NoWrap] at hwrap
  rw [BitVec.toNat_add]
  omega

variable (IDX displaceBuf) in
theorem exists_displaceRange (hwrap : NoWrap addr size) :
    ∃ N, ∀ fuel ≥ N, ∃ l, displaceRange IDX displaceBuf fuel addr size = some l := by
  have hround := toNat_roundDown addr
  have hstop := hwrap.toNat_add
  rw [NoWrap] at hwrap
  exact ⟨(addr.toNat + size.toNat) / 16 + 2, fun fuel hfuel => exists_displaceLoop (by omega)
    (by omega) (by omega)⟩

/-- `displace_range` walks the sets of the lines of its range. -/
theorem walks_of_displaceRange (hn : IDX ≤ 28) (hbuf : BufAligned IDX displaceBuf)
    (hwrap : NoWrap addr size) (h : displaceRange IDX displaceBuf fuel addr size = some l) :
    Walks displaceBuf (setsOf IDX (addr.toNat / 16 * 16) (addr.toNat + size.toNat)) l := by
  rw [← toNat_roundDown, ← hwrap.toNat_add]
  have hround := toNat_roundDown addr
  exact walks_of_displaceLoop hn hbuf (hwrap.toNat_add ▸ hwrap) (by omega) h

end

/-- The bytes before a range in its first line are of no other set. -/
theorem setsOf_round (hsize : 1 ≤ size.toNat) :
    setsOf IDX (addr.toNat / 16 * 16) (addr.toNat + size.toNat) =
    {x | ∃ b, InRange addr size b ∧ idxOf IDX b = x} := by
  ext x
  constructor
  · rintro ⟨b, hab, hb, rfl⟩
    by_cases hin : addr.toNat ≤ b.toNat
    · exact ⟨b, ⟨hin, hb⟩, rfl⟩
    · exact ⟨addr, ⟨le_rfl, by omega⟩, idxOf_eq_of_div (by omega)⟩
  · rintro ⟨b, ⟨hab, hb⟩, rfl⟩
    exact ⟨b, by omega, hb, rfl⟩

/-- `displace_all` walks all sets. -/
theorem walks_displaceAll (hn : IDX ≤ 28) (hbuf : BufAligned IDX displaceBuf) :
    Walks displaceBuf (Set.univ : Set (BitVec IDX)) (displaceAll IDX displaceBuf) := by
  have hlt : ∀ set < DC_SETS IDX, (BitVec.ofNat 32 set).toNat = set := fun set hset => by
    have hpow : DC_SETS IDX ≤ 2 ^ 28 := Nat.pow_le_pow_right (by decide) hn
    rw [BitVec.toNat_ofNat]
    omega
  constructor
  · intro a ha
    obtain ⟨set, hset, rfl⟩ := List.mem_map.1 ha
    rw [List.mem_range] at hset
    exact (parts_displaceAddr hn hbuf ((hlt set hset).symm ▸ hset)).1
  · refine Set.eq_univ_of_forall fun x => ⟨_, List.mem_map_of_mem (List.mem_range.2 x.isLt), ?_⟩
    apply BitVec.eq_of_toNat_eq
    have hx := hlt x.toNat x.isLt
    rw [(parts_displaceAddr hn hbuf (hx.symm ▸ x.isLt)).2, hx]

/-- A range whose lines are not of the buffer is in memory after `displace_range`, and not in the
    cache; the sets of other lines are as before. After `displace_all` every set holds its line of
    the buffer, and everything else is in memory. -/
theorem displace_range_all (hn : IDX ≤ 28) (hbuf : BufAligned IDX displaceBuf) (s : CachedMem IDX) :
    (∀ addr size : Word, 1 ≤ size.toNat → NoWrap addr size →
      (∀ b c, InRange addr size b → lineNo c = lineNo b → ¬InBuf IDX displaceBuf c) →
      ∃ N, ∀ fuel ≥ N, ∃ l, displaceRange IDX displaceBuf fuel addr size = some l ∧
        (∀ b, InRange addr size b → ¬(s.loads l).Holds b ∧ (s.loads l).lower b = s.latest b) ∧
        (∀ x, (∀ b, InRange addr size b → idxOf IDX b ≠ x) →
          (s.loads l).tagv x = s.tagv x ∧ (s.loads l).dirty x = s.dirty x ∧
          ∀ k, (s.loads l).d k x = s.d k x)) ∧
    (∀ x : BitVec IDX, (s.loads (displaceAll IDX displaceBuf)).tagv x = ⟨true, tagOf IDX displaceBuf⟩) ∧
    ∀ b, ¬InBuf IDX displaceBuf b → (s.loads (displaceAll IDX displaceBuf)).lower b = s.latest b := by
  have hall : Displaced _ _ s _ := (walks_displaceAll hn hbuf).displaced hn
  refine ⟨fun addr size hsize hwrap hdisj => ?_, fun x => hall.tagv x (Set.mem_univ x), fun b hb => ?_⟩
  · obtain ⟨N, hN⟩ := exists_displaceRange IDX displaceBuf hwrap
    refine ⟨N, fun fuel hfuel => ?_⟩
    obtain ⟨l, hl⟩ := hN fuel hfuel
    have hw := walks_of_displaceRange hn hbuf hwrap hl
    have hd : Displaced _ _ s _ := setsOf_round hsize ▸ hw.displaced hn
    refine ⟨l, hl, fun b hb => ?_, fun x hx => hd.frame x ?_⟩
    · exact hd.lower_eq ⟨b, hb, rfl⟩ fun htag => hdisj b b hb rfl ((tagOf_eq_iff_inBuf hn hbuf).1 htag)
    · rintro ⟨b, hb, rfl⟩
      exact hx b hb rfl
  · exact (hall.lower_eq (Set.mem_univ _) fun htag => hb ((tagOf_eq_iff_inBuf hn hbuf).1 htag)).2

/-- Two sets, both with a dirty line. -/
def dirtySets : CachedMem 1 := ⟨fun _ _ => 0xDDCCBBAA, fun _ => ⟨true, 1⟩, fun _ => true, fun _ => 0⟩

/-- A byte of one of them is in memory after a flush of the two bytes around it. -/
theorem displaceRange_dirtySets : ∃ N, ∀ fuel ≥ N, ∃ l, displaceRange 1 0x1000 fuel 0x21 2 = some l ∧
    ¬(dirtySets.loads l).Holds 0x22 ∧ (dirtySets.loads l).lower 0x22 = 0xCC := by
  obtain ⟨N, hN⟩ := (displace_range_all (by decide) (show BufAligned 1 0x1000 by decide) dirtySets).1
    0x21 2 (by decide)
    (by decide) fun b c hb hc hbuf => by
      simp only [InRange, BitVec.ofNat_eq_ofNat, BitVec.toNat_ofNat] at hb
      have hline := congrArg BitVec.toNat hc
      rw [toNat_lineNo, toNat_lineNo] at hline
      have hlow : 0x1000 ≤ c.toNat := hbuf.1
      omega
  refine ⟨N, fun fuel hfuel => ?_⟩
  obtain ⟨l, hl, hrange, -⟩ := hN fuel hfuel
  obtain ⟨hnot, hlower⟩ := hrange 0x22 (by simp [InRange])
  exact ⟨l, hl, hnot, hlower.trans (by decide)⟩

end DcacheBram

end Rv32Soc
