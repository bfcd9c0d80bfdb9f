import FreeVMS.Lib.Abbreviation
import FreeVMS.Rtl.StrDynamic

/-!
# Keyword lookup

`lib$lookup_key` takes a key when the key is the beginning of the search string. Whether it has taken
one already it sees from `found`, which is 0 also for the first key of the table.
-/

namespace FreeVMS.Rtl.Str

open Lib.Abbreviation

def libAmbkey : Nat := 1409596

def libUnrkey : Nat := 1409604

def libStrtru : Nat := 1409041

/-- `strncmp` -/
def strncmp (m : Memory) (s1 s2 : Nat) : Nat → Int
  | 0 => 0
  | n + 1 =>
    if m s1 ≠ m s2 then ((m s1).toNat : Int) - (m s2).toNat
    else if m s1 = 0 then 0
    else strncmp m (s1 + 1) (s2 + 1) n

/-- The address of the counted string in the longword `i` of the table, behind the count. -/
def keyAddress (keyTable : Nat → BitVec 64) (i : Nat) : Nat := (keyTable (1 + i)).toNat

/-- `char len = *s` -/
def keyLength (m : Memory) (keyTable : Nat → BitVec 64) (i : Nat) : Int :=
  (m (keyAddress keyTable i)).toInt

/-- The test for a key: the length is an `int`, and for `strncmp` a `size_t`. -/
def keyTaken (m : Memory) (keyTable : Nat → BitVec 64) (searchString : Descriptor) (i : Nat) : Bool :=
  decide (keyLength m keyTable i ≤ searchString.wLength.toNat ∧
    strncmp m searchString.aPointer (keyAddress keyTable i + 1)
      (BitVec.ofInt 64 (keyLength m keyTable i)).toNat = 0)

/-- The loop over the table, with no result when it returns `LIB$_AMBKEY`. -/
def lookupLoop (m : Memory) (keyTable : Nat → BitVec 64) (searchString : Descriptor) :
    Nat → Nat → Nat → Option Nat
  | 0, _, found => some found
  | steps + 1, i, found =>
    if keyTaken m keyTable searchString i = true then
      if found ≠ 0 then none else lookupLoop m keyTable searchString steps (i + 2) i
    else lookupLoop m keyTable searchString steps (i + 2) found

/-- What a call leaves: its status, what it has stored where there was a place for it, and the
memory. -/
structure Lookup where
  status : Nat
  keyValue : Option (BitVec 64)
  resultantLength : Option (BitVec 16)
  memory : Memory

/-- `lib$lookup_key`. Of the last three arguments it matters here whether they are there. -/
def libLookupKey (m : Memory) (searchString : Descriptor) (keyTableArray : Nat → BitVec 64)
    (keyValue keywordString resultantLength : Bool) : Lookup :=
  let max := asInt (keyTableArray 0).toInt
  match lookupLoop m keyTableArray searchString ((max + 1) / 2).toNat 0 0 with
  | none => ⟨libAmbkey, none, none, m⟩
  | some found =>
    if found = 0 then ⟨libUnrkey, none, none, m⟩
    else
      let s := keyAddress keyTableArray found + 1
      let len := keyLength m keyTableArray found
      let value := if keyValue then some (keyTableArray (1 + found + 1)) else none
      let length := if resultantLength then some (BitVec.ofInt 16 len) else none
      if keywordString then
        let wLength : Int := searchString.wLength.toNat
        let min := if len < wLength then wLength else len
        let memory := memcpy m searchString.aPointer s min.toNat
        ⟨if wLength < len then libStrtru else normal, value, length, memory⟩
      else ⟨normal, value, length, m⟩

/-- A table of counted strings, each with a value. -/
structure KeyTable (m : Memory) (keyTable : Nat → BitVec 64) (keys : List (List Byte)) : Prop where
  count : (keyTable 0).toInt = 2 * keys.length
  fits : 2 * keys.length < 2 ^ 31
  length : ∀ k (h : k < keys.length), (m (keyAddress keyTable (2 * k))).toNat = keys[k].length
  bytes : ∀ k (h : k < keys.length),
    bytesAt m (keyAddress keyTable (2 * k) + 1) keys[k].length = keys[k]

/-- The search string, by its length and its address. -/
structure Search (m : Memory) (searchString : Descriptor) (u : List Byte) : Prop where
  length : searchString.wLength.toNat = u.length
  bytes : bytesAt m searchString.aPointer u.length = u

variable {m : Memory} {keyTable : Nat → BitVec 64} {searchString : Descriptor}
  {keys : List (List Byte)} {u : List Byte} {k n : Nat}

/-! ## The loop -/

/-- The key number `k` is not the first and is the only such one that is taken. -/
structure OnlyTaken (m : Memory) (keyTable : Nat → BitVec 64) (searchString : Descriptor)
    (n k : Nat) : Prop where
  later : 1 ≤ k
  lt : k < n
  taken : keyTaken m keyTable searchString (2 * k) = true
  only : ∀ j, 1 ≤ j → j < n → keyTaken m keyTable searchString (2 * j) = true → j = k

/-- Two keys besides the first are taken. -/
def TwoTaken (m : Memory) (keyTable : Nat → BitVec 64) (searchString : Descriptor) (n : Nat) : Prop :=
  ∃ i j, 1 ≤ i ∧ i < j ∧ j < n ∧ keyTaken m keyTable searchString (2 * i) = true ∧
    keyTaken m keyTable searchString (2 * j) = true

/-- No key besides the first is taken. -/
def NoneTaken (m : Memory) (keyTable : Nat → BitVec 64) (searchString : Descriptor) (n : Nat) : Prop :=
  ∀ j, 1 ≤ j → j < n → keyTaken m keyTable searchString (2 * j) = false

/-- Once a key is found the next one ends the loop. -/
theorem lookupLoop_found {found : Nat} (hfound : found ≠ 0) (steps i : Nat) :
    (lookupLoop m keyTable searchString steps (2 * i) found = some found ∧
        ∀ j, i ≤ j → j < i + steps → keyTaken m keyTable searchString (2 * j) = false) ∨
      (lookupLoop m keyTable searchString steps (2 * i) found = none ∧
        ∃ j, i ≤ j ∧ j < i + steps ∧ keyTaken m keyTable searchString (2 * j) = true) := by
  induction steps generalizing i with
  | zero => exact Or.inl ⟨rfl, fun j hj hlt => by omega⟩
  | succ steps ih =>
    rw [lookupLoop]
    by_cases htaken : keyTaken m keyTable searchString (2 * i) = true
    · rw [if_pos htaken, if_pos hfound]
      exact Or.inr ⟨rfl, i, Nat.le_refl i, by omega, htaken⟩
    · rw [if_neg htaken]
      rcases ih (i + 1) with ⟨hloop, hnone⟩ | ⟨hloop, j, hj, hlt, hj'⟩
      · refine Or.inl ⟨hloop, fun j hj hlt => ?_⟩
        rcases Nat.eq_or_lt_of_le hj with rfl | hj
        · exact Bool.eq_false_of_not_eq_true htaken
        · exact hnone j hj (by omega)
      · exact Or.inr ⟨hloop, j, by omega, by omega, hj'⟩

/-- The loop from a key on that is not the first. -/
theorem lookupLoop_later {i : Nat} (hi : 1 ≤ i) (steps : Nat) :
    (lookupLoop m keyTable searchString steps (2 * i) 0 = some 0 ∧
        ∀ j, i ≤ j → j < i + steps → keyTaken m keyTable searchString (2 * j) = false) ∨
      (∃ k, lookupLoop m keyTable searchString steps (2 * i) 0 = some (2 * k) ∧ i ≤ k ∧
        k < i + steps ∧ keyTaken m keyTable searchString (2 * k) = true ∧
        ∀ j, i ≤ j → j < i + steps → keyTaken m keyTable searchString (2 * j) = true → j = k) ∨
      (lookupLoop m keyTable searchString steps (2 * i) 0 = none ∧
        ∃ k j, i ≤ k ∧ k < j ∧ j < i + steps ∧ keyTaken m keyTable searchString (2 * k) = true ∧
          keyTaken m keyTable searchString (2 * j) = true) := by
  induction steps generalizing i with
  | zero => exact Or.inl ⟨rfl, fun j hj hlt => by omega⟩
  | succ steps ih =>
    rw [lookupLoop]
    by_cases htaken : keyTaken m keyTable searchString (2 * i) = true
    · rw [if_pos htaken, if_neg (not_not_intro rfl)]
      right
      rcases @lookupLoop_found m keyTable searchString (2 * i) (by omega) steps (i + 1) with
        ⟨hloop, hnone⟩ | ⟨hloop, j, hj, hlt, hj'⟩
      · refine Or.inl ⟨i, hloop, Nat.le_refl i, by omega, htaken, fun j hj hlt hj' => ?_⟩
        rcases Nat.eq_or_lt_of_le hj with rfl | hj
        · rfl
        · exact absurd (hnone j hj (by omega)) (by rw [hj']; decide)
      · exact Or.inr ⟨hloop, i, j, Nat.le_refl i, hj, by omega, htaken, hj'⟩
    · rw [if_neg htaken]
      rcases ih (i := i + 1) (by omega) with ⟨hloop, hnone⟩ | ⟨k, hloop, hk, hlt, hk', honly⟩ |
        ⟨hloop, k, j, hk, hkj, hlt, hk', hj'⟩
      · refine Or.inl ⟨hloop, fun j hj hlt => ?_⟩
        rcases Nat.eq_or_lt_of_le hj with rfl | hj
        · exact Bool.eq_false_of_not_eq_true htaken
        · exact hnone j hj (by omega)
      · refine Or.inr (Or.inl ⟨k, hloop, by omega, by omega, hk', fun j hj hlt hj' => ?_⟩)
        rcases Nat.eq_or_lt_of_le hj with rfl | hj
        · exact absurd hj' htaken
        · exact honly j hj (by omega) hj'
      · exact Or.inr (Or.inr ⟨hloop, k, j, by omega, hkj, by omega, hk', hj'⟩)

/-- The first key makes no difference. -/
theorem lookupLoop_cases (m : Memory) (keyTable : Nat → BitVec 64) (searchString : Descriptor)
    (n : Nat) :
    (lookupLoop m keyTable searchString n 0 0 = some 0 ∧ NoneTaken m keyTable searchString n) ∨
      (∃ k, lookupLoop m keyTable searchString n 0 0 = some (2 * k) ∧
        OnlyTaken m keyTable searchString n k) ∨
      (lookupLoop m keyTable searchString n 0 0 = none ∧ TwoTaken m keyTable searchString n) := by
  cases n with
  | zero => exact Or.inl ⟨rfl, fun j _ hlt => absurd hlt (Nat.not_lt_zero j)⟩
  | succ n =>
    have hfirst : lookupLoop m keyTable searchString (n + 1) 0 0 =
        lookupLoop m keyTable searchString n (2 * 1) 0 := by
      rw [lookupLoop, if_neg (not_not_intro rfl), ite_self]
    have hcount : 1 + n = n + 1 := Nat.add_comm 1 n
    have hlater := @lookupLoop_later m keyTable searchString 1 (Nat.le_refl 1) n
    rw [← hfirst, hcount] at hlater
    rcases hlater with hnone | ⟨k, hloop, hk, hlt, hk', honly⟩ | htwo
    · exact Or.inl hnone
    · exact Or.inr (Or.inl ⟨k, hloop, hk, hlt, hk', honly⟩)
    · exact Or.inr (Or.inr htwo)

theorem OnlyTaken.unique {k' : Nat} (h : OnlyTaken m keyTable searchString n k)
    (h' : OnlyTaken m keyTable searchString n k') : k = k' :=
  h'.only k h.later h.lt h.taken

theorem OnlyTaken.not_nothing (h : OnlyTaken m keyTable searchString n k) :
    ¬ NoneTaken m keyTable searchString n := by
  intro hnone
  have hk := hnone k h.later h.lt
  rw [h.taken] at hk
  exact nomatch hk

theorem OnlyTaken.not_two (h : OnlyTaken m keyTable searchString n k) :
    ¬ TwoTaken m keyTable searchString n := by
  rintro ⟨i, j, hi, hij, hj, htaken, htaken'⟩
  have hik := h.only i hi (by omega) htaken
  have hjk := h.only j (by omega) hj htaken'
  omega

theorem TwoTaken.not_nothing (h : TwoTaken m keyTable searchString n) :
    ¬ NoneTaken m keyTable searchString n := by
  obtain ⟨i, j, hi, hij, hj, htaken, -⟩ := h
  intro hnone
  have hi' := hnone i hi (by omega)
  rw [htaken] at hi'
  exact nomatch hi'

theorem lookupLoop_only (h : OnlyTaken m keyTable searchString n k) :
    lookupLoop m keyTable searchString n 0 0 = some (2 * k) := by
  rcases lookupLoop_cases m keyTable searchString n with
    ⟨-, hnone⟩ | ⟨k', hloop, h'⟩ | ⟨-, htwo⟩
  · exact absurd hnone h.not_nothing
  · rw [hloop, h.unique h']
  · exact absurd htwo h.not_two

theorem lookupLoop_two (h : TwoTaken m keyTable searchString n) :
    lookupLoop m keyTable searchString n 0 0 = none := by
  rcases lookupLoop_cases m keyTable searchString n with
    ⟨-, hnone⟩ | ⟨k', -, h'⟩ | ⟨hloop, -⟩
  · exact absurd hnone h.not_nothing
  · exact absurd h h'.not_two
  · exact hloop

theorem lookupLoop_nothing (h : NoneTaken m keyTable searchString n) :
    lookupLoop m keyTable searchString n 0 0 = some 0 := by
  rcases lookupLoop_cases m keyTable searchString n with
    ⟨hloop, -⟩ | ⟨k', -, h'⟩ | ⟨-, htwo⟩
  · exact hloop
  · exact absurd h h'.not_nothing
  · exact absurd h htwo.not_nothing

/-! ## What is taken -/

theorem strncmp_eq_zero_iff {p q : Nat} {a b : List Byte} (hlength : a.length = b.length)
    (ha : bytesAt m p a.length = a) (hb : bytesAt m q b.length = b) (hnul : 0 ∉ b) :
    strncmp m p q a.length = 0 ↔ a = b := by
  induction a generalizing b p q with
  | nil =>
    obtain rfl := List.eq_nil_of_length_eq_zero hlength.symm
    exact iff_of_true rfl rfl
  | cons x a ih =>
    cases b with
    | nil => exact nomatch hlength
    | cons y b =>
      rw [List.length_cons, bytesAt_succ] at ha hb
      obtain ⟨hx, hresta⟩ := List.cons.inj ha
      obtain ⟨hy, hrestb⟩ := List.cons.inj hb
      obtain ⟨hnul, hrestnul⟩ := not_or.mp fun h => hnul (List.mem_cons.mpr h)
      rw [List.length_cons, strncmp, hx, hy, List.cons.injEq]
      by_cases hxy : x = y
      · subst hxy
        rw [if_neg (not_not_intro rfl), if_neg (Ne.symm hnul),
          ih (Nat.succ.inj hlength) hresta hrestb hrestnul]
        exact (and_iff_right rfl).symm
      · have hne : x.toNat ≠ y.toNat := fun h => hxy (BitVec.eq_of_toNat_eq h)
        rw [if_pos hxy]
        exact iff_of_false (by omega) fun h => hxy h.1

theorem keyLength_eq (htable : KeyTable m keyTable keys) (hk : k < keys.length) :
    keyLength m keyTable (2 * k) =
      if keys[k].length < 128 then (keys[k].length : Int) else keys[k].length - 256 := by
  have hlength := htable.length k hk
  rw [keyLength, BitVec.toInt_eq_toNat_cond, hlength]
  split_ifs <;> omega

/-- A key that a `char` holds the length of is taken when it is the beginning of the search string. -/
theorem keyTaken_iff (htable : KeyTable m keyTable keys) (hsearch : Search m searchString u)
    (hk : k < keys.length) (hshort : keys[k].length < 128) (hnul : 0 ∉ keys[k]) :
    keyTaken m keyTable searchString (2 * k) = true ↔ keys[k] <+: u := by
  have hlength := keyLength_eq htable hk
  rw [if_pos hshort] at hlength
  have hsize : (BitVec.ofInt 64 (keys[k].length : Int)).toNat = keys[k].length := by
    rw [BitVec.ofInt_natCast, BitVec.toNat_ofNat, Nat.mod_eq_of_lt (by omega)]
  rw [keyTaken, decide_eq_true_eq, hlength, hsearch.length, hsize, Int.ofNat_le]
  by_cases hle : keys[k].length ≤ u.length
  · have htake : (u.take keys[k].length).length = keys[k].length := by
      rw [List.length_take, Nat.min_eq_left hle]
    have hbytes := bytesAt_part (o := 0) (k := keys[k].length) hsearch.bytes (Or.inr (by omega))
    rw [Nat.add_zero, List.drop_zero] at hbytes
    have hcompare := @strncmp_eq_zero_iff m searchString.aPointer (keyAddress keyTable (2 * k) + 1)
      (u.take keys[k].length) keys[k] htake (by rw [htake]; exact hbytes) (htable.bytes k hk) hnul
    rw [htake] at hcompare
    rw [hcompare, and_iff_right hle, List.prefix_iff_eq_take]
    exact eq_comm
  · exact iff_of_false (fun h => hle h.1) fun h => hle h.length_le

/-! ## When the lookup is right -/

/-- What a call should leave. -/
structure LookupRight (keyTable : Nat → BitVec 64) (searchString : Descriptor)
    (keys : List (List Byte)) (u : List Byte) (keyValue resultantLength : Bool) (result : Lookup) :
    Prop where
  found : result.status = normal ↔ ∃ k, Means keys u k
  value : ∀ k, Means keys u k → keyValue = true →
    result.keyValue = some (keyTable (1 + 2 * k + 1))
  length : ∀ k key, Means keys u k → keys[k]? = some key → resultantLength = true →
    result.resultantLength = some (BitVec.ofNat 16 key.length)
  ambiguous : result.status = libAmbkey ↔ Ambiguous keys u
  unknown : result.status = libUnrkey ↔ Unknown keys u
  kept : bytesAt result.memory searchString.aPointer u.length = u

/-- What is stored for the key number `k'` is right for `k`, and copied where it does no harm. -/
def StoresFor (m : Memory) (keyTable : Nat → BitVec 64) (keys : List (List Byte)) (u : List Byte)
    (keyValue keywordString resultantLength : Bool) (k' k : Nat) : Prop :=
  (keyValue = true → keyTable (1 + 2 * k' + 1) = keyTable (1 + 2 * k + 1)) ∧
    (resultantLength = true → ∃ key key', keys[k]? = some key ∧ keys[k']? = some key' ∧
      key'.length = key.length ∧ key.length < 128) ∧
    (keywordString = true → bytesAt m (keyAddress keyTable (2 * k') + 1) u.length = u)

/-- The condition: of the keys besides the first one only is taken, and what is stored for it is what
is stored for the key that the search string means; or two are taken and the search string is
ambiguous; or none is, and it is unknown. -/
def LookupCondition (m : Memory) (keyTable : Nat → BitVec 64) (searchString : Descriptor)
    (keys : List (List Byte)) (u : List Byte) (keyValue keywordString resultantLength : Bool) : Prop :=
  (∃ k k', Means keys u k ∧ OnlyTaken m keyTable searchString keys.length k' ∧
      StoresFor m keyTable keys u keyValue keywordString resultantLength k' k) ∨
    (Ambiguous keys u ∧ TwoTaken m keyTable searchString keys.length) ∨
    (Unknown keys u ∧ NoneTaken m keyTable searchString keys.length)

section lookup

variable (htable : KeyTable m keyTable keys) {keyValue keywordString resultantLength : Bool}
include htable

/-- The loop goes through all keys. -/
theorem lookup_steps : ((asInt (keyTable 0).toInt + 1) / 2).toNat = keys.length := by
  have hfits := htable.fits
  rw [htable.count, asInt, Int.bmod_eq_of_le (by omega) (by omega)]
  omega

theorem libLookupKey_two (htwo : TwoTaken m keyTable searchString keys.length) :
    libLookupKey m searchString keyTable keyValue keywordString resultantLength =
      ⟨libAmbkey, none, none, m⟩ := by
  simp only [libLookupKey, lookup_steps htable, lookupLoop_two htwo]

theorem libLookupKey_nothing (hnone : NoneTaken m keyTable searchString keys.length) :
    libLookupKey m searchString keyTable keyValue keywordString resultantLength =
      ⟨libUnrkey, none, none, m⟩ := by
  simp only [libLookupKey, lookup_steps htable, lookupLoop_nothing hnone, if_true]

/-- A key that is taken is not longer than the search string. -/
theorem libLookupKey_only {k' : Nat} (honly : OnlyTaken m keyTable searchString keys.length k') :
    libLookupKey m searchString keyTable keyValue keywordString resultantLength =
      ⟨normal, if keyValue then some (keyTable (1 + 2 * k' + 1)) else none,
        if resultantLength then some (BitVec.ofInt 16 (keyLength m keyTable (2 * k'))) else none,
        if keywordString then memcpy m searchString.aPointer (keyAddress keyTable (2 * k') + 1)
          searchString.wLength.toNat else m⟩ := by
  have hlater := honly.later
  have htaken := honly.taken
  rw [keyTaken, decide_eq_true_eq] at htaken
  have hfound : ¬ 2 * k' = 0 := by omega
  have hlong : ¬ (searchString.wLength.toNat : Int) < keyLength m keyTable (2 * k') := by omega
  have hmin : (if keyLength m keyTable (2 * k') < (searchString.wLength.toNat : Int) then
      (searchString.wLength.toNat : Int) else keyLength m keyTable (2 * k')).toNat =
      searchString.wLength.toNat := by
    split <;> omega
  simp only [libLookupKey, lookup_steps htable, lookupLoop_only honly, if_neg hfound, hmin,
    if_neg hlong]
  cases keywordString <;> rfl

/-- The length of one key as it is stored for another. -/
theorem stored_length_iff {k' : Nat} {key key' : List Byte} (hkey : keys[k]? = some key)
    (hkey' : keys[k']? = some key') :
    BitVec.ofInt 16 (keyLength m keyTable (2 * k')) = BitVec.ofNat 16 key.length ↔
      key'.length = key.length ∧ key.length < 128 := by
  obtain ⟨hk, rfl⟩ := List.getElem?_eq_some_iff.mp hkey
  obtain ⟨hk', rfl⟩ := List.getElem?_eq_some_iff.mp hkey'
  have hlt : keys[k].length < 256 := by
    rw [← htable.length k hk]
    exact (m _).isLt
  have hlt' : keys[k'].length < 256 := by
    rw [← htable.length k' hk']
    exact (m _).isLt
  rw [keyLength_eq htable hk', ← BitVec.toNat_inj, BitVec.toNat_ofInt, BitVec.toNat_ofNat]
  split_ifs <;> omega

end lookup

theorem lookupCondition_of_right (htable : KeyTable m keyTable keys)
    (hsearch : Search m searchString u) {keyValue keywordString resultantLength : Bool}
    (h : LookupRight keyTable searchString keys u keyValue resultantLength
      (libLookupKey m searchString keyTable keyValue keywordString resultantLength)) :
    LookupCondition m keyTable searchString keys u keyValue keywordString resultantLength := by
  rcases lookupLoop_cases m keyTable searchString keys.length with
    ⟨-, hnone⟩ | ⟨k', -, honly⟩ | ⟨-, htwo⟩
  · rw [libLookupKey_nothing htable hnone] at h
    exact Or.inr (Or.inr ⟨h.unknown.mp rfl, hnone⟩)
  · rw [libLookupKey_only htable honly] at h
    obtain ⟨k, hmeans⟩ := h.found.mp rfl
    refine Or.inl ⟨k, k', hmeans, honly, ?_, ?_, ?_⟩
    · rintro rfl
      exact Option.some.inj (h.value k hmeans rfl)
    · rintro rfl
      obtain ⟨key, hkey, -⟩ := hmeans.get
      have hkey' := List.getElem?_eq_getElem honly.lt
      exact ⟨key, _, hkey, hkey', (stored_length_iff htable hkey hkey').mp
        (Option.some.inj (h.length k key hmeans hkey rfl))⟩
    · rintro rfl
      have hkept := h.kept
      simp only [if_true] at hkept
      rw [hsearch.length, bytesAt_memcpy] at hkept
      exact hkept
  · rw [libLookupKey_two htable htwo] at h
    exact Or.inr (Or.inl ⟨h.ambiguous.mp rfl, htwo⟩)

theorem lookupRight_of_condition (htable : KeyTable m keyTable keys) (hdistinct : keys.Nodup)
    (hsearch : Search m searchString u) {keyValue keywordString resultantLength : Bool}
    (h : LookupCondition m keyTable searchString keys u keyValue keywordString resultantLength) :
    LookupRight keyTable searchString keys u keyValue resultantLength
      (libLookupKey m searchString keyTable keyValue keywordString resultantLength) := by
  rcases h with ⟨k, k', hmeans, honly, hvalue, hlength, hkeyword⟩ | ⟨hambiguous, htwo⟩ |
    ⟨hunknown, hnone⟩
  · rw [libLookupKey_only htable honly]
    constructor
    · exact iff_of_true rfl ⟨k, hmeans⟩
    · rintro j hj rfl
      obtain rfl := hj.unique hdistinct hmeans
      exact congrArg some (hvalue rfl)
    · rintro j key hj hkey rfl
      obtain rfl := hj.unique hdistinct hmeans
      obtain ⟨key₀, key', hkey₀, hkey', heq⟩ := hlength rfl
      obtain rfl := Option.some.inj (hkey₀.symm.trans hkey)
      exact congrArg some ((stored_length_iff htable hkey hkey').mpr heq)
    · exact iff_of_false (show normal ≠ libAmbkey by decide) (not_ambiguous_of_means hmeans)
    · exact iff_of_false (show normal ≠ libUnrkey by decide) (not_unknown_of_means hmeans)
    · cases keywordString with
      | false => exact hsearch.bytes
      | true =>
        simp only [if_true]
        rw [hsearch.length, bytesAt_memcpy]
        exact hkeyword rfl
  · rw [libLookupKey_two htable htwo]
    constructor
    · refine iff_of_false (show libAmbkey ≠ normal by decide) ?_
      exact fun ⟨k, hmeans⟩ => not_ambiguous_of_means hmeans hambiguous
    · exact fun k hmeans => absurd hambiguous (not_ambiguous_of_means hmeans)
    · exact fun k _ hmeans => absurd hambiguous (not_ambiguous_of_means hmeans)
    · exact iff_of_true rfl hambiguous
    · exact iff_of_false (show libAmbkey ≠ libUnrkey by decide) (not_unknown_of_ambiguous hambiguous)
    · exact hsearch.bytes
  · rw [libLookupKey_nothing htable hnone]
    constructor
    · refine iff_of_false (show libUnrkey ≠ normal by decide) ?_
      exact fun ⟨k, hmeans⟩ => not_unknown_of_means hmeans hunknown
    · exact fun k hmeans => absurd hunknown (not_unknown_of_means hmeans)
    · exact fun k _ hmeans => absurd hunknown (not_unknown_of_means hmeans)
    · refine iff_of_false (show libUnrkey ≠ libAmbkey by decide) ?_
      exact fun hambiguous => not_unknown_of_ambiguous hambiguous hunknown
    · exact iff_of_true rfl hunknown
    · exact hsearch.bytes

/-- **Keyword lookup.** `lib$lookup_key` gives what the search string means exactly under this
condition. -/
theorem lookup_right_iff (htable : KeyTable m keyTable keys) (hdistinct : keys.Nodup)
    (hsearch : Search m searchString u) (keyValue keywordString resultantLength : Bool) :
    LookupRight keyTable searchString keys u keyValue resultantLength
        (libLookupKey m searchString keyTable keyValue keywordString resultantLength) ↔
      LookupCondition m keyTable searchString keys u keyValue keywordString resultantLength :=
  ⟨lookupCondition_of_right htable hsearch, lookupRight_of_condition htable hdistinct hsearch⟩

/-- The search string `A`, and the keys `A` and `B`. -/
def keyMemory : Memory := fun a => [0, 65, 0, 1, 65, 1, 66].getD a 0

def keyTwo : Nat → BitVec 64 := fun i => [4, 3, 7, 5, 8].getD i 0

theorem keyTwo_table : KeyTable keyMemory keyTwo [[65], [66]] := by
  constructor
  · decide
  · decide
  · intro k hk
    rcases k with _ | _ | k
    · rfl
    · rfl
    · exact absurd hk (by simp)
  · intro k hk
    rcases k with _ | _ | k
    · rfl
    · rfl
    · exact absurd hk (by simp)

theorem keyMemory_search : Search keyMemory ⟨1, .s, 1⟩ [65] := ⟨rfl, rfl⟩

theorem lookup_right_iff_two :
    LookupRight keyTwo ⟨1, .s, 1⟩ [[65], [66]] [65] true true
        (libLookupKey keyMemory ⟨1, .s, 1⟩ keyTwo true false true) ↔
      LookupCondition keyMemory keyTwo ⟨1, .s, 1⟩ [[65], [66]] [65] true false true :=
  lookup_right_iff keyTwo_table (by decide) keyMemory_search true false true

/-- The first key is never found. -/
theorem first_key_unknown :
    ¬ LookupRight keyTwo ⟨1, .s, 1⟩ [[65], [66]] [65] true true
      (libLookupKey keyMemory ⟨1, .s, 1⟩ keyTwo true false true) := by
  intro h
  have hstatus : (libLookupKey keyMemory ⟨1, .s, 1⟩ keyTwo true false true).status = libUnrkey := by
    decide
  exact h.unknown.mp hstatus [65] (by decide) (List.prefix_refl _)

end FreeVMS.Rtl.Str
