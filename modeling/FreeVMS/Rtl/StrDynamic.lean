import FreeVMS.Rtl.StrHeap

/-!
# Operations on dynamic strings

What each routine leaves in a dynamic string, and that it leaves the rest of the world alone. A
routine that needs space ends in `STR$_INSVIRMEM` when there is none, and in no other fault.
-/

namespace FreeVMS.Rtl.Str

open Run (Ends)

variable {place : Store → Nat → Nat} {static : Nat → Prop} {σ : Store} {d source : Descriptor}
  {s t u : List Byte} {p q : Nat} {out : Outcome}

/-- A routine that leaves the string `s` in the dynamic string of the block `q`, unless there is no
space. -/
def Gives (place : Store → Nat → Nat) (static : Nat → Prop) (σ : Store) (q : Nat) (status : Nat)
    (s : List Byte) (call : Except Fault Outcome) : Prop :=
  Ends (OutOfMemory place) (fun out => out.status = status ∧ Leaves static σ q s out) call

theorem Leaves.trans {out' : Outcome} (h : Leaves static σ q s out)
    (h' : Leaves static out.store out.destination.aPointer t out') : Leaves static σ q t out' :=
  ⟨h'.tidy, h'.dynamic, h.frame.trans h'.frame⟩

/-- One call after another on the same string. -/
theorem Gives.after {call : Except Fault Outcome} {status : Nat} (h : Leaves static σ q s out)
    (h' : Gives place static out.store out.destination.aPointer status t call) :
    Gives place static σ q status t call :=
  Ends.mono h' fun _ hout => ⟨hout.1, h.trans hout.2⟩

/-- Where there is always space a call returns. -/
theorem returns_of_space {α : Type} {call : Except Fault α} {Q : α → Prop}
    (h : Ends (OutOfMemory place) Q call) (hspace : ∀ σ n, 0 < n → place σ n ≠ 0) :
    ∃ out, call = .ok out ∧ Q out := by
  apply Ends.exists_ok h
  rintro fault ⟨-, σ, n, hn, hp⟩
  exact hspace σ n hn hp

theorem Gives.returns {call : Except Fault Outcome} {status : Nat}
    (h : Gives place static σ q status s call) (hspace : ∀ σ n, 0 < n → place σ n ≠ 0) :
    ∃ out, call = .ok out ∧ out.status = status ∧ Leaves static σ q s out :=
  returns_of_space h hspace

theorem outOfMemory {n : BitVec 16} (hp : place σ n.toNat = 0) (hn : n ≠ 0) :
    OutOfMemory place (.signal strInsvirmem) := by
  have hpos : n.toNat ≠ 0 := fun h => hn (BitVec.eq_of_toNat_eq h)
  exact ⟨rfl, σ, n.toNat, Nat.pos_of_ne_zero hpos, hp⟩

/-! ## Freeing -/

theorem free_eq {size : Nat} (h : ⟨p, size⟩ ∈ σ.blocks) :
    free σ p = .ok { σ with blocks := σ.blocks.filter fun b => b.address ≠ p } :=
  if_pos (List.mem_map.mpr ⟨_, h, rfl⟩)

/-- After its block is given back a descriptor is an empty string. -/
theorem leaves_freed (hσ : Tidy static σ) (hclass : d.bClass = .d) (q status : Nat) :
    Leaves static σ q [] ⟨status, { d with aPointer := 0, wLength := 0 },
      { σ with blocks := σ.blocks.filter fun b => b.address ≠ q }⟩ := by
  constructor
  · exact hσ.of_blocks fun b hb => (List.mem_filter.mp hb).1
  · exact ⟨hclass, rfl, rfl, Or.inl ⟨rfl, rfl⟩⟩
  · constructor
    · intro b hb hown
      have hne : b.address ≠ q := by simpa using hown
      exact ⟨List.mem_filter.mpr ⟨hb, by simpa using hne⟩, by simpa using hσ.address b hb⟩
    · exact fun _ _ => rfl

/-- `str$free1_dx` needs no space. -/
theorem strFree1Dx_dynamic (hσ : Tidy static σ) (hd : Dynamic σ d s) :
    ∃ out, strFree1Dx d σ = .ok out ∧ out.status = strNormal ∧
      Leaves static σ d.aPointer [] out := by
  rcases hd.owned with ⟨hp, rfl⟩ | ⟨hp, size, hb, -⟩
  · refine ⟨⟨strNormal, d, σ⟩, ?_, rfl, hσ, hd, Frame.refl⟩
    simp only [strFree1Dx, hd.class_eq, hp, ne_eq, not_true_eq_false, if_false, if_true]
    rfl
  · refine ⟨_, ?_, rfl, leaves_freed hσ hd.dynamic d.aPointer strNormal⟩
    simp only [strFree1Dx, hd.class_eq, hp, ne_eq, not_true_eq_false, if_false, free_eq hb]
    rfl

/-- Space that has been taken for a while, and is given back, was not there. -/
theorem Leaves.release {σ' : Store} {out freed : Outcome} {w : Nat} (hσ : Tidy static σ)
    (hgiven : Frame static σ [0] σ' [w]) (hleaves : Leaves static σ' q s out)
    (hw : Distinct out.destination.aPointer w) (hfreed : Leaves static out.store w t freed)
    (status : Nat) : Leaves static σ q s ⟨status, out.destination, freed.store⟩ := by
  refine ⟨hfreed.tidy, (hleaves.dynamic.frame hw hfreed.frame).1, ?_⟩
  -- the own blocks in between are that of the string and that space
  have hbefore : Frame static σ [q] σ' [w, q] := (Frame.null hσ).trans (hgiven.append [q])
  have hcall : Frame static σ' [w, q] out.store [w, out.destination.aPointer] :=
    (hleaves.frame.append [w]).weaken (by simp) (by simp)
  have hafter := hfreed.frame.append [out.destination.aPointer]
  exact (hbefore.trans (hcall.trans hafter)).weaken (List.Subset.refl _) (by simp)

/-! ## Space of another size -/

/-- What is kept of a string in a new block, behind which there are zeros. -/
def sized (n : Nat) (s : List Byte) : List Byte := s.take n ++ List.replicate (n - s.length) 0

theorem length_sized (n : Nat) (s : List Byte) : (sized n s).length = n := by
  rw [sized, List.length_append, List.length_take, List.length_replicate]
  omega

theorem sized_self (s : List Byte) : sized s.length s = s := by simp [sized]

theorem take_sized (n : Nat) (h : s.length ≤ n) : (sized n s).take s.length = s := by
  simp [sized, List.take_of_length_le h]

theorem copyLoop_apply (m : Memory) (dest source n a : Nat)
    (h : ∀ i, i < n → ¬ (dest ≤ source + i ∧ source + i < dest + n)) :
    copyLoop m dest source n a =
      if dest ≤ a ∧ a < dest + n then m (source + (a - dest)) else m a := by
  induction n generalizing a with
  | zero => rw [copyLoop, if_neg (by omega)]
  | succ n ih =>
    have hih := fun a => ih a fun i hi => by
      have := h i (by omega)
      omega
    have hlast := h n (by omega)
    rw [copyLoop]
    by_cases ha : a = dest + n
    · subst ha
      rw [Function.update_self, hih, if_neg (by omega), if_pos (by omega), Nat.add_sub_cancel_left]
    · rw [Function.update_of_ne ha, hih]
      split_ifs <;> first | rfl | omega

theorem calloc_eq {n : Nat} (hp : place σ n ≠ 0) :
    (calloc place σ n).1 = place σ n ∧ (calloc place σ n).2.blocks = ⟨place σ n, n⟩ :: σ.blocks := by
  simp [calloc, hp]

theorem calloc_new {n i : Nat} (hp : place σ n ≠ 0) (hi : i < n) :
    (calloc place σ n).2.memory (place σ n + i) = 0 := by
  simp [calloc, hp, hi]

theorem calloc_old {n a : Nat} (hp : place σ n ≠ 0) (h : ¬ Block.Holds ⟨place σ n, n⟩ a) :
    (calloc place σ n).2.memory a = σ.memory a := by
  simp only [calloc, if_neg hp]
  exact if_neg h

/-- A new block in the place of the block `q`. -/
theorem leaves_given (hσ : Tidy static σ) (ha : Allocates place static) (hclass : d.bClass = .d)
    {n : BitVec 16} (hp : place σ n.toNat ≠ 0) (hs : s.length = n.toNat) {m : Memory}
    (hm : ∀ a, ¬ Block.Holds ⟨place σ n.toNat, n.toNat⟩ a → m a = σ.memory a)
    (hbytes : bytesAt m (place σ n.toNat) n.toNat = s) {blocks : List Block}
    (hnew : ⟨place σ n.toNat, n.toNat⟩ ∈ blocks)
    (hold : ∀ b ∈ blocks, b ∈ Block.mk (place σ n.toNat) n.toNat :: σ.blocks)
    (hkeep : ∀ b ∈ σ.blocks, b.address ≠ q → b ∈ blocks) (status : Nat) :
    Leaves static σ q s
      ⟨status, { d with aPointer := place σ n.toNat, wLength := n }, ⟨m, blocks⟩⟩ := by
  constructor
  · exact (hσ.cons ha hp m).of_blocks hold
  · exact ⟨hclass, hs.symm, by rw [hs]; exact hbytes,
      Or.inr ⟨hp, n.toNat, hnew, Nat.le_of_eq hs⟩⟩
  · constructor
    · intro b hb hown
      have hne : b.address ≠ q := by simpa using hown
      exact ⟨hkeep b hb hne, by simpa using (ha.apart σ n.toNat hp b hb).address.symm⟩
    · exact fun a hkept => hm a (hkept.not_given ha hp)

/-- The bytes of a new block. -/
theorem sized_eq_bytesAt {m : Memory} {n : Nat}
    (hm : ∀ i, i < n → m (p + i) = if i < min s.length n then s.getD i 0 else 0) :
    bytesAt m p n = sized n s := by
  rw [bytesAt_eq_iff]
  constructor
  · exact length_sized n s
  · intro i hi
    rw [length_sized] at hi
    rw [hm i hi]
    simp only [sized, List.getElem_append, List.length_take, List.getElem_take,
      List.getElem_replicate]
    split_ifs with h1 h2 h3
    · have hi' : i < s.length := by omega
      simp [hi']
    · omega
    · omega
    · rfl

/-- The bytes of the old block, which `calloc` has not cleared, in the new one. -/
theorem leaves_moved (ha : Allocates place static) (hσ : Tidy static σ) (hclass : d.bClass = .d)
    {size : Nat} (hb : ⟨q, size⟩ ∈ σ.blocks) (hsize : s.length ≤ size)
    (hbytes : bytesAt σ.memory q s.length = s) {n : BitVec 16} (hp : place σ n.toNat ≠ 0)
    (status : Nat) :
    Leaves static σ q (sized n.toNat s)
      ⟨status, { d with aPointer := place σ n.toNat, wLength := n },
        ⟨copyLoop (calloc place σ n.toNat).2.memory (place σ n.toNat) q (min s.length n.toNat),
          (calloc place σ n.toNat).2.blocks.filter fun b => b.address ≠ q⟩⟩ := by
  have hapart := ha.apart σ n.toNat hp _ hb
  have hold : ∀ i, i < s.length → ¬ Block.Holds ⟨place σ n.toNat, n.toNat⟩ (q + i) :=
    fun i hi hnew => hapart.bytes _ hnew (@Block.holds_add ⟨q, size⟩ i (Nat.lt_of_lt_of_le hi hsize))
  have hcopy := fun a => copyLoop_apply (calloc place σ n.toNat).2.memory (place σ n.toNat) q
    (min s.length n.toNat) a fun i hi hin => hold i (by omega) ⟨hin.1, by
      show q + i < place σ n.toNat + n.toNat
      omega⟩
  rw [(calloc_eq hp).2]
  refine leaves_given hσ ha hclass hp (length_sized _ _) ?_ ?_
    (List.mem_filter.mpr ⟨List.mem_cons_self, by simpa using hapart.address⟩)
    (fun b hb => (List.mem_filter.mp hb).1)
    (fun b hb hne => List.mem_filter.mpr ⟨List.mem_cons_of_mem _ hb, by simpa using hne⟩) _
  · intro a hnot
    rw [hcopy, if_neg, calloc_old hp hnot]
    rintro ⟨h1, h2⟩
    apply hnot
    exact ⟨h1, by
      show a < place σ n.toNat + n.toNat
      omega⟩
  · apply sized_eq_bytesAt
    intro i hi
    rw [hcopy]
    by_cases hin : i < min s.length n.toNat
    · have hi' : i < s.length := by omega
      rw [if_pos (by omega), if_pos hin, Nat.add_sub_cancel_left, calloc_old hp (hold i hi'),
        (bytesAt_eq_iff.mp hbytes).2 i hi']
      simp [hi']
    · rw [if_neg (by omega), if_neg hin, calloc_new hp hi]

/-- `str$get1_dx` for a descriptor with no block. -/
theorem strGet1Dx_null (ha : Allocates place static) (hσ : Tidy static σ) (hclass : d.bClass = .d)
    (hp : d.aPointer = 0) (length : BitVec 16) :
    Gives place static σ 0 strNormal (sized length.toNat []) (strGet1Dx place length d σ) := by
  have hd : ¬ d.bClass ≠ .d := not_not_intro hclass
  have hnull : ¬ d.aPointer ≠ 0 := not_not_intro hp
  unfold strGet1Dx
  simp only [if_neg hd, if_neg hnull, bind, Except.bind, pure, Except.pure, throw, throwThe,
    MonadExceptOf.throw]
  by_cases hlength : length = 0
  · subst hlength
    rw [if_pos rfl]
    refine .ok ⟨rfl, hσ, ⟨hclass, rfl, rfl, Or.inl ⟨hp, rfl⟩⟩, ?_⟩
    show Frame static σ [0] σ [d.aPointer]
    rw [hp]
    exact Frame.refl
  · rw [if_neg hlength]
    by_cases hplace : place σ length.toNat = 0
    · simp only [calloc, hplace, if_true]
      exact .error (outOfMemory hplace hlength)
    · have hnew := (calloc_eq hplace).1
      simp only [hnew, if_neg hplace]
      refine .ok ⟨rfl, leaves_given hσ ha hclass hplace (length_sized _ _)
        (fun a hnot => calloc_old hplace hnot) ?_ (by simp [calloc_eq hplace])
        (fun b hb => by rwa [(calloc_eq hplace).2] at hb)
        (fun b hb _ => by simp [calloc_eq hplace, hb]) _⟩
      apply sized_eq_bytesAt
      intro i hi
      rw [calloc_new hplace hi]
      simp

/-- `str$get1_dx` -/
theorem strGet1Dx_dynamic (ha : Allocates place static) (hσ : Tidy static σ)
    (hd : Dynamic σ d s) (length : BitVec 16) :
    Gives place static σ d.aPointer strNormal (sized length.toNat s)
      (strGet1Dx place length d σ) := by
  rcases hd.owned with ⟨hp, rfl⟩ | ⟨hp, size, hb, hsize⟩
  · rw [hp]
    exact strGet1Dx_null ha hσ hd.dynamic hp length
  · have hclass : ¬ d.bClass ≠ .d := not_not_intro hd.dynamic
    unfold strGet1Dx
    simp only [if_neg hclass, if_pos hp, bind, Except.bind, pure, Except.pure, throw, throwThe,
      MonadExceptOf.throw]
    by_cases hsame : d.wLength = length
    · rw [if_pos hsame, ← hsame, hd.length, sized_self]
      exact .ok ⟨rfl, hσ, hd, Frame.refl⟩
    · rw [if_neg hsame]
      by_cases hlength : length = 0
      · subst hlength
        rw [if_pos rfl, free_eq hb]
        have hnil : sized (0 : BitVec 16).toNat s = [] := by simp [sized]
        rw [hnil]
        exact .ok ⟨rfl, leaves_freed hσ hd.dynamic _ _⟩
      · rw [if_neg hlength]
        by_cases hplace : place σ length.toNat = 0
        · simp only [calloc, hplace, if_true]
          exact .error (outOfMemory hplace hlength)
        · have hnew := (calloc_eq hplace).1
          have hold : ⟨d.aPointer, size⟩ ∈ (calloc place σ length.toNat).2.blocks := by
            simp [calloc_eq hplace, hb]
          simp only [hnew, if_neg hplace, hd.length]
          have hfree := fun m => free_eq (σ := ⟨m, (calloc place σ length.toNat).2.blocks⟩) hold
          rw [hfree]
          exact .ok ⟨rfl, leaves_moved ha hσ hd.dynamic hb hsize hd.bytes hplace strNormal⟩

/-! ## Copying and appending -/

/-- Another text of the same length in the block of a string. -/
theorem Leaves.write (h : Leaves static σ q s out) (hlength : t.length = s.length) {m : Memory}
    (hm : ∀ a, ¬ (out.destination.aPointer ≤ a ∧ a < out.destination.aPointer + s.length) →
      m a = out.store.memory a)
    (hbytes : bytesAt m out.destination.aPointer t.length = t) (status : Nat) :
    Leaves static σ q t ⟨status, out.destination, { out.store with memory := m }⟩ := by
  have hlength' : out.destination.wLength.toNat = t.length := h.dynamic.length.trans hlength.symm
  constructor
  · exact h.tidy.of_blocks fun b hb => hb
  · refine ⟨h.dynamic.dynamic, hlength', hbytes, ?_⟩
    rcases h.dynamic.owned with ⟨hp, rfl⟩ | ⟨hp, size, hb, hsize⟩
    · exact Or.inl ⟨hp, List.eq_nil_of_length_eq_zero hlength⟩
    · exact Or.inr ⟨hp, size, hb, by omega⟩
  · apply h.frame.trans
    rcases h.dynamic.owned with ⟨hp, rfl⟩ | ⟨hp, size, hb, hsize⟩
    · exact ⟨fun b hb hown => ⟨hb, hown⟩, fun a _ => hm a (by simp)⟩
    · exact Frame.write h.tidy hb fun a hnot => hm a fun hin => hnot
        ⟨hin.1, Nat.lt_of_lt_of_le hin.2 (Nat.add_le_add_left hsize _)⟩

/-- What a call reads where it may is what was there before. -/
theorem Leaves.bytesAt_eq (h : Leaves static σ q s out) {n : Nat}
    (hkept : ∀ i, i < n → Kept static σ [q] (p + i)) :
    bytesAt out.store.memory p n = bytesAt σ.memory p n :=
  bytesAt_congr fun i hi => h.frame.memory _ (hkept i hi)

/-- `str$copy_r` -/
theorem strCopyR_dynamic (ha : Allocates place static) (hσ : Tidy static σ) (hd : Dynamic σ d s)
    {n : BitVec 16} (hnull : p = 0 → n = 0)
    (hkept : ∀ i, i < n.toNat → Kept static σ [d.aPointer] (p + i)) :
    Gives place static σ d.aPointer strNormal (bytesAt σ.memory p n.toNat)
      (strCopyR place d n p σ) := by
  have htext : (if p ≠ 0 then n.toNat else 0) = n.toNat := by
    by_cases hp : p = 0
    · rw [if_neg (not_not_intro hp), hnull hp]
      rfl
    · exact if_pos hp
  have hnull' : p = 0 → n.toNat = 0 := fun hp => by
    rw [hnull hp]
    rfl
  have hresize : strResize place d n σ = strGet1Dx place n d σ := by
    simp only [strResize, hd.dynamic]
  simp only [strCopyR, htext, hd.class_eq, hresize, ne_eq, not_true_eq_false, if_false]
  apply Ends.bind (strGet1Dx_dynamic ha hσ hd n)
  rintro out ⟨hstatus, hleaves⟩
  have hlength : out.destination.wLength.toNat = n.toNat := by
    rw [hleaves.dynamic.length, length_sized]
  simp only [hstatus, not_true_eq_false, if_false, hleaves.dynamic.analyzed, ok_bind, hlength]
  refine .ok ⟨if_neg (Nat.lt_irrefl _), ?_⟩
  apply hleaves.write
  · rw [length_sized, length_bytesAt]
  · intro a hnot
    rw [length_sized] at hnot
    rw [strCopyFill_apply _ _ _ _ _ _ hnull', if_neg hnot]
  · rw [length_bytesAt, strCopyFill_bytes _ _ _ _ _ hnull', padded_of_le (by simp),
      List.take_of_length_le (by simp)]
    exact hleaves.bytesAt_eq hkept

/-- A part of a source. -/
theorem strCopyR_part (ha : Allocates place static) (hσ : Tidy static σ) (hd : Dynamic σ d s)
    (hs : Source static σ [d.aPointer] source p t) {o : Nat} {n : BitVec 16}
    (hn : n.toNat = 0 ∨ o + n.toNat ≤ t.length) :
    Gives place static σ d.aPointer strNormal ((t.drop o).take n.toNat)
      (strCopyR place d n (p + o) σ) := by
  rw [← bytesAt_part hs.bytes hn]
  apply strCopyR_dynamic ha hσ hd
  · intro hp
    have hnil := hs.null (by omega)
    rw [hnil, List.length_nil] at hn
    exact BitVec.eq_of_toNat_eq (by simp; omega)
  · intro i hi
    exact hs.kept_text (by omega) (by omega)

theorem bytesAt_memcpy (m : Memory) (dest source n : Nat) :
    bytesAt (memcpy m dest source n) dest n = bytesAt m source n := by
  apply List.map_congr_left
  intro i hi
  have hi := List.mem_range.mp hi
  rw [memcpy, if_pos (by omega), Nat.add_sub_cancel_left]

/-- The string, and behind it `k` bytes of a source, in a block that has been brought to their
length. -/
theorem append_grown (ha : Allocates place static) (hσ : Tidy static σ) (hd : Dynamic σ d s)
    (hs : Source static σ [d.aPointer] source p t) {k : Nat} (hk : k ≤ t.length)
    (hfits : s.length + k < 65536) (status : Nat) :
    Gives place static σ d.aPointer status (s ++ t.take k)
      (strResize place d (BitVec.ofNat 16 (s.length + k)) σ >>= fun resized =>
        if resized.status = strNormal then
          let memory := memcpy resized.store.memory (resized.destination.aPointer + s.length) p k
          pure ⟨status, { resized.destination with wLength := BitVec.ofNat 16 (s.length + k) },
            { resized.store with memory := memory }⟩
        else pure { resized with status := strFatinterr }) := by
  have hresize : strResize place d (BitVec.ofNat 16 (s.length + k)) σ =
      strGet1Dx place (BitVec.ofNat 16 (s.length + k)) d σ := by
    simp only [strResize, hd.dynamic]
  have htoNat : (BitVec.ofNat 16 (s.length + k)).toNat = s.length + k := by
    rw [BitVec.toNat_ofNat, Nat.mod_eq_of_lt hfits]
  rw [hresize]
  apply Ends.bind (strGet1Dx_dynamic ha hσ hd _)
  rintro out ⟨hstatus, hleaves⟩
  rw [htoNat] at hleaves
  rw [if_pos hstatus]
  have hw : out.destination.wLength = BitVec.ofNat 16 (s.length + k) := by
    rw [hleaves.dynamic.wLength_eq, length_sized]
  rw [← hw]
  refine .ok ⟨rfl, ?_⟩
  apply hleaves.write
  · rw [length_sized, List.length_append, List.length_take, Nat.min_eq_left hk]
  · intro a hnot
    rw [length_sized] at hnot
    exact if_neg (by omega)
  · have hold : bytesAt out.store.memory out.destination.aPointer (s.length + k) =
        sized (s.length + k) s := by
      have hbytes := hleaves.dynamic.bytes
      rwa [length_sized] at hbytes
    have hfront : bytesAt out.store.memory out.destination.aPointer s.length = s := by
      rw [bytesAt_add] at hold
      have htake := congrArg (List.take s.length) hold
      rwa [take_sized _ (Nat.le_add_right _ _), List.take_left' (length_bytesAt _ _ _)] at htake
    have hsource : bytesAt out.store.memory p k = t.take k := by
      have hpart := bytesAt_part hs.bytes (o := 0) (Or.inr (by omega : 0 + k ≤ t.length))
      rw [Nat.add_zero, List.drop_zero] at hpart
      rw [← hpart]
      exact hleaves.bytesAt_eq fun i hi => hs.kept_text (by omega) (by omega)
    rw [List.length_append, List.length_take, Nat.min_eq_left hk, bytesAt_add]
    congr 1
    · rw [← hfront, length_bytesAt]
      apply bytesAt_congr
      intro i hi
      exact if_neg (by omega)
    · exact (bytesAt_memcpy _ _ _ _).trans hsource

/-- `str$append` -/
theorem strAppend_dynamic (ha : Allocates place static) (hσ : Tidy static σ) (hd : Dynamic σ d s)
    (hs : Source static σ [d.aPointer] source p t) :
    Gives place static σ d.aPointer (if 65535 < s.length + t.length then strTru else strNormal)
      ((s ++ t).take 65535) (strAppend place d source σ) := by
  have hclass : ¬ d.bClass ≠ .d := not_not_intro hd.dynamic
  have hlt := hd.lt
  simp only [strAppend, if_neg hclass, hd.analyzed, hs.analyzed, hs.toNat_length, hd.length, ok_bind,
    maxcstr16]
  by_cases hlong : 65535 < s.length + t.length
  · simp only [if_pos hlong]
    have hgrown := append_grown ha hσ hd hs (k := 65535 - s.length) (by omega) (by omega) strTru
    have hsum : s.length + (65535 - s.length) = 65535 := by omega
    rw [hsum] at hgrown
    rw [List.take_append, List.take_of_length_le (by omega : s.length ≤ 65535)]
    exact hgrown
  · simp only [if_neg hlong]
    have hgrown := append_grown ha hσ hd hs (k := t.length) (Nat.le_refl _) (by omega) normal
    rw [List.take_length] at hgrown
    rw [List.take_of_length_le (by rw [List.length_append]; omega)]
    exact hgrown

end FreeVMS.Rtl.Str
