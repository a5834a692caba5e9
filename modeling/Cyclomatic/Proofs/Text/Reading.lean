import Cyclomatic.Text.Lines
import Cyclomatic.Text.Utf8

/-! # Reading texts and writing them back

A text that is read strictly is written as the bytes it was read from. Between
two bytes of a sequence, what is still owed tells which bytes there were. A text
that has no carriage return keeps its line ends.
-/

namespace Cyclomatic

namespace Utf8

/-! ## The bytes of a text -/

theorem toList_loop (bytes : ByteArray) (i : Nat) (read : Bytes) :
    ByteArray.toList.loop bytes i read = read.reverse ++ bytes.data.toList.drop i := by
  fun_induction ByteArray.toList.loop bytes i read with
  | case1 i read hlt ih =>
      have hlt : i < bytes.data.toList.length := hlt
      have hget : bytes.get! i = bytes.data.toList[i] := getElem!_pos bytes.data i hlt
      rw [ih, hget, List.drop_eq_getElem_cons hlt, List.reverse_cons, List.append_assoc]
      rfl
  | case2 i read hge =>
      have hge : ¬i < bytes.data.toList.length := hge
      rw [List.drop_of_length_le (Nat.le_of_not_lt hge), List.append_nil]

/-- A text is encoded character by character. -/
theorem encode_eq (s : String) : encode s = s.toList.flatMap String.utf8EncodeChar := by
  rw [encode, ByteArray.toList, toList_loop, List.reverse_nil, List.nil_append, List.drop_zero,
    String.toUTF8_eq_toByteArray, ← String.utf8Encode_toList, List.utf8Encode,
    List.toList_data_toByteArray]

theorem encode_ofList (cs : List Char) :
    encode (String.ofList cs) = cs.flatMap String.utf8EncodeChar := by
  rw [encode_eq, String.toList_ofList]

/-- Different texts have different bytes. -/
theorem encode_inj {s t : String} (hbytes : encode s = encode t) : s = t := by
  rw [encode_eq, encode_eq] at hbytes
  apply String.toByteArray_inj.mp
  rw [← String.utf8Encode_toList, ← String.utf8Encode_toList, List.utf8Encode, List.utf8Encode,
    hbytes]

/-! ## The bytes of a sequence -/

/-- What is owed after the first bytes of a sequence: what they spell and what may follow. -/
inductive Owes (before : List Nat) : Owed → Prop
  | two {v : Nat} (hbytes : before = [0xC0 + v]) (hleast : 2 ≤ v) (hless : v < 0x20) :
      Owes before ⟨v, 1, 0x80, 0xBF⟩
  | three {v least greatest : Nat} (hbytes : before = [0xE0 + v]) (hless : v < 0x10)
      (hleast : 0x80 ≤ least) (hgreatest : greatest ≤ 0xBF) (hshort : v = 0 → 0xA0 ≤ least)
      (hsurrogate : v = 0xD → greatest ≤ 0x9F) : Owes before ⟨v, 2, least, greatest⟩
  | threeTwo {v : Nat} (hbytes : before = [0xE0 + v / 0x40, 0x80 + v % 0x40])
      (hleast : 0x20 ≤ v) (hless : v < 0x400) (hsurrogate : v < 0x360 ∨ 0x380 ≤ v) :
      Owes before ⟨v, 1, 0x80, 0xBF⟩
  | four {v least greatest : Nat} (hbytes : before = [0xF0 + v]) (hless : v < 5)
      (hleast : 0x80 ≤ least) (hgreatest : greatest ≤ 0xBF) (hshort : v = 0 → 0x90 ≤ least)
      (hlong : v = 4 → greatest ≤ 0x8F) : Owes before ⟨v, 3, least, greatest⟩
  | fourTwo {v : Nat} (hbytes : before = [0xF0 + v / 0x40, 0x80 + v % 0x40])
      (hleast : 0x10 ≤ v) (hless : v < 0x110) : Owes before ⟨v, 2, 0x80, 0xBF⟩
  | fourThree {v : Nat}
      (hbytes : before = [0xF0 + v / 0x1000, 0x80 + v / 0x40 % 0x40, 0x80 + v % 0x40])
      (hleast : 0x400 ≤ v) (hless : v < 0x4400) : Owes before ⟨v, 1, 0x80, 0xBF⟩

/-- The bytes of a character as numbers. -/
def units (c : Char) : List Nat := (String.utf8EncodeChar c).map UInt8.toNat

/-- How many bytes a character takes, and which, is told by its number. -/
theorem units_ofNat {v : Nat} (hvalid : v.isValidChar) : units (Char.ofNat v) =
    if v ≤ 0x7F then [v]
    else if v ≤ 0x7FF then [0xC0 + v / 0x40, 0x80 + v % 0x40]
    else if v ≤ 0xFFFF then [0xE0 + v / 0x1000, 0x80 + v / 0x40 % 0x40, 0x80 + v % 0x40]
    else [0xF0 + v / 0x40000, 0x80 + v / 0x1000 % 0x40, 0x80 + v / 0x40 % 0x40,
      0x80 + v % 0x40] := by
  have hval : (Char.ofNat v).val.toNat = v := by
    rw [Char.ofNat, dif_pos hvalid]
    rfl
  have hlt : v < 0x110000 := by omega
  rw [units, String.utf8EncodeChar.eq_1, hval]
  have hunit (n : Nat) (hn : n < 0x100) : (UInt8.ofNat n).toNat = n := by
    rw [UInt8.toNat_ofNat', Nat.mod_eq_of_lt hn]
  split
  · rw [List.map_singleton, hunit _ (by omega)]
  split
  · simp only [List.map_cons, List.map_nil, List.cons.injEq, and_true]
    rw [hunit _ (by omega), hunit _ (by omega)]
    omega
  split
  · simp only [List.map_cons, List.map_nil, List.cons.injEq, and_true]
    rw [hunit _ (by omega), hunit _ (by omega), hunit _ (by omega)]
    omega
  · simp only [List.map_cons, List.map_nil, List.cons.injEq, and_true]
    rw [hunit _ (by omega), hunit _ (by omega), hunit _ (by omega), hunit _ (by omega)]
    omega

/-- A first byte is a character, opens a sequence, or does neither. -/
theorem start_cases (b : Nat) :
    b < 0x80 ∧ start b = .complete (Char.ofNat b) ∨
      (∃ owed, start b = .opens owed ∧ Owes [b] owed) ∨ start b = .invalid := by
  have hfirst : ∀ base, base ≤ b → [b] = [base + (b - base)] := fun base hle => by
    rw [Nat.add_sub_cancel' hle]
  unfold start
  by_cases hascii : b < 0x80
  · exact .inl ⟨hascii, if_pos hascii⟩
  refine .inr ?_
  rw [if_neg hascii]
  by_cases hlow : b < 0xC2
  · exact .inr (if_pos hlow)
  rw [if_neg hlow]
  by_cases htwo : b < 0xE0
  · exact .inl ⟨_, if_pos htwo, .two (hfirst 0xC0 (by omega)) (by omega) (by omega)⟩
  rw [if_neg htwo]
  by_cases hE0 : b = 0xE0
  · exact .inl ⟨_, if_pos hE0,
      .three (by rw [hE0]) (by omega) (by omega) (by omega) (by omega) (by omega)⟩
  rw [if_neg hE0]
  by_cases hED : b = 0xED
  · exact .inl ⟨_, if_pos hED,
      .three (by rw [hED]) (by omega) (by omega) (by omega) (by omega) (by omega)⟩
  rw [if_neg hED]
  by_cases hthree : b < 0xF0
  · exact .inl ⟨_, if_pos hthree,
      .three (hfirst 0xE0 (by omega)) (by omega) (by omega) (by omega) (by omega) (by omega)⟩
  rw [if_neg hthree]
  by_cases hF0 : b = 0xF0
  · exact .inl ⟨_, if_pos hF0,
      .four (by rw [hF0]) (by omega) (by omega) (by omega) (by omega) (by omega)⟩
  rw [if_neg hF0]
  by_cases hfour : b < 0xF4
  · exact .inl ⟨_, if_pos hfour,
      .four (hfirst 0xF0 (by omega)) (by omega) (by omega) (by omega) (by omega) (by omega)⟩
  rw [if_neg hfour]
  by_cases hF4 : b = 0xF4
  · exact .inl ⟨_, if_pos hF4,
      .four (by rw [hF4]) (by omega) (by omega) (by omega) (by omega) (by omega)⟩
  · exact .inr (if_neg hF4)

/-- A byte that is a whole character is the encoding of this character. -/
theorem units_of_start {b : Nat} {c : Char} (hstart : start b = .complete c) : units c = [b] := by
  rcases start_cases b with ⟨hlt, hb⟩ | ⟨owed, hb, _⟩ | hb
  · rw [hb] at hstart
    rw [← Start.complete.inj hstart, units_ofNat (by unfold Nat.isValidChar; omega),
      if_pos (by omega)]
  · cases hb.symm.trans hstart
  · cases hb.symm.trans hstart

/-- A byte that opens a character leaves open what the character still needs. -/
theorem owes_of_start {b : Nat} {owed : Owed} (hstart : start b = .opens owed) :
    Owes [b] owed := by
  rcases start_cases b with ⟨_, hb⟩ | ⟨owed', hb, howes⟩ | hb
  · cases hb.symm.trans hstart
  · rw [hb] at hstart
    rwa [← Start.opens.inj hstart]
  · cases hb.symm.trans hstart

theorem continue_eq (owed : Owed) (b : Nat) : owed.continue b =
    if owed.least ≤ b ∧ b ≤ owed.greatest then
      if owed.count ≤ 1 then .complete (Char.ofNat (owed.value * 0x40 + (b - 0x80)))
      else .opens ⟨owed.value * 0x40 + (b - 0x80), owed.count - 1, 0x80, 0xBF⟩
    else .invalid := by
  rw [Owed.continue]
  by_cases hb : owed.least ≤ b ∧ b ≤ owed.greatest
  · rw [if_pos hb, if_neg (by simpa using hb)]
  · rw [if_neg hb, if_pos (by simp only [Bool.or_eq_true, decide_eq_true_eq]; omega)]

/-- What a sequence comes to with its last byte. -/
theorem continue_complete {owed : Owed} {b : Nat} {c : Char}
    (hcontinue : owed.continue b = .complete c) :
    owed.least ≤ b ∧ b ≤ owed.greatest ∧ owed.count ≤ 1 ∧
      c = Char.ofNat (owed.value * 0x40 + (b - 0x80)) := by
  rw [continue_eq] at hcontinue
  split at hcontinue
  next hb =>
    split at hcontinue
    next hcount => exact ⟨hb.1, hb.2, hcount, (Start.complete.inj hcontinue).symm⟩
    next => cases hcontinue
  next => cases hcontinue

/-- What a sequence comes to with a byte that is not its last. -/
theorem continue_opens {owed owed' : Owed} {b : Nat}
    (hcontinue : owed.continue b = .opens owed') :
    owed.least ≤ b ∧ b ≤ owed.greatest ∧ ¬owed.count ≤ 1 ∧
      owed' = ⟨owed.value * 0x40 + (b - 0x80), owed.count - 1, 0x80, 0xBF⟩ := by
  rw [continue_eq] at hcontinue
  split at hcontinue
  next hb =>
    split at hcontinue
    next => cases hcontinue
    next hcount => exact ⟨hb.1, hb.2, hcount, (Start.opens.inj hcontinue).symm⟩
  next => cases hcontinue

/-- The byte that completes a character, behind those before, makes up its encoding. -/
theorem units_of_continue {before : List Nat} {owed : Owed} {b : Nat} {c : Char}
    (howes : Owes before owed) (hcontinue : owed.continue b = .complete c) :
    units c = before ++ [b] := by
  obtain ⟨hleast, hgreatest, hcount, hc⟩ := continue_complete hcontinue
  rw [hc]
  cases howes with
  | two hbytes hlow hless =>
      simp only at hleast hgreatest ⊢
      rw [units_ofNat (by unfold Nat.isValidChar; omega), if_neg (by omega), if_pos (by omega),
        hbytes]
      simp only [List.cons_append, List.nil_append, List.cons.injEq, and_true]
      omega
  | threeTwo hbytes hlow hless hsurrogate =>
      simp only at hleast hgreatest ⊢
      rw [units_ofNat (by unfold Nat.isValidChar; omega), if_neg (by omega), if_neg (by omega),
        if_pos (by omega), hbytes]
      simp only [List.cons_append, List.nil_append, List.cons.injEq, and_true]
      omega
  | fourThree hbytes hlow hless =>
      simp only at hleast hgreatest ⊢
      rw [units_ofNat (by unfold Nat.isValidChar; omega), if_neg (by omega), if_neg (by omega),
        if_neg (by omega), hbytes]
      simp only [List.cons_append, List.nil_append, List.cons.injEq, and_true]
      omega
  | three | four | fourTwo =>
      simp only at hcount
      omega

/-- A byte that continues a character leaves open one byte less. -/
theorem owes_of_continue {before : List Nat} {owed owed' : Owed} {b : Nat}
    (howes : Owes before owed) (hcontinue : owed.continue b = .opens owed') :
    Owes (before ++ [b]) owed' := by
  obtain ⟨hleast, hgreatest, hcount, rfl⟩ := continue_opens hcontinue
  cases howes with
  | three hbytes hless hlow hhigh hshort hsurrogate =>
      simp only at hleast hgreatest ⊢
      refine .threeTwo ?_ (by omega) (by omega) (by omega)
      rw [hbytes]
      simp only [List.cons_append, List.nil_append, List.cons.injEq, and_true]
      omega
  | four hbytes hless hlow hhigh hshort hlong =>
      simp only at hleast hgreatest ⊢
      refine .fourTwo ?_ (by omega) (by omega)
      rw [hbytes]
      simp only [List.cons_append, List.nil_append, List.cons.injEq, and_true]
      omega
  | fourTwo hbytes hlow hless =>
      simp only at hleast hgreatest ⊢
      refine .fourThree ?_ (by omega) (by omega)
      rw [hbytes]
      simp only [List.cons_append, List.nil_append, List.cons.injEq, and_true]
      omega
  | two | threeTwo | fourThree => exact absurd (Nat.le_refl 1) hcount

/-! ## Strict reading -/

/-- The bytes before a position, as far as they belong to a sequence that is still open. -/
inductive Opened : List Nat → Option (Nat × Nat × Owed) → Prop
  | between : Opened [] none
  | inside {before first length owed} (howes : Owes before owed) :
      Opened before (some (first, length, owed))

/-- What is read strictly encodes to the bytes that were read, those of a character that was left
open before included. -/
theorem units_of_strictFrom {position : Nat} {state : Option (Nat × Nat × Owed)} {bs : Bytes}
    {cs : List Char} {before : List Nat} (hopened : Opened before state)
    (hread : strictFrom position state bs = .ok cs) :
    before ++ bs.map UInt8.toNat = cs.flatMap units := by
  induction bs generalizing position state cs before with
  | nil =>
      cases hopened with
      | between =>
          obtain rfl := Except.ok.inj hread
          rfl
      | inside => cases hread
  | cons b bs ih =>
      -- A byte that completes a character leaves the rest to be read from between characters.
      have hcomplete {seen : List Nat} {c : Char} (hunits : units c = seen ++ [b.toNat])
          (hmore : (c :: ·) <$> strictFrom (position + 1) none bs = .ok cs) :
          seen ++ (b :: bs).map UInt8.toNat = cs.flatMap units := by
        cases hrest : strictFrom (position + 1) none bs with
        | error fault =>
            rw [hrest] at hmore
            cases hmore
        | ok rest =>
            rw [hrest] at hmore
            obtain rfl : c :: rest = cs := Except.ok.inj hmore
            have hbytes : bs.map UInt8.toNat = rest.flatMap units := ih .between hrest
            rw [List.flatMap_cons, hunits, ← hbytes, List.append_assoc]
            rfl
      cases hopened with
      | between =>
          rw [strictFrom] at hread
          split at hread
          next c hstart => exact hcomplete (units_of_start hstart) hread
          next owed hstart => exact ih (.inside (owes_of_start hstart)) hread
          next => cases hread
      | inside howes =>
          rw [strictFrom] at hread
          split at hread
          next c hcontinue => exact hcomplete (units_of_continue howes hcontinue) hread
          next owed' hcontinue =>
            rw [← ih (.inside (owes_of_continue howes hcontinue)) hread, List.append_assoc]
            rfl
          next => cases hread

/-- A text that was read strictly is written as the bytes it was read from. -/
theorem encode_of_decodeStrict {bs : Bytes} {s : String} (hread : decodeStrict bs = .ok s) :
    encode s = bs := by
  rw [decodeStrict] at hread
  cases hchars : strictFrom 0 none bs with
  | error fault =>
      rw [hchars] at hread
      cases hread
  | ok cs =>
      rw [hchars] at hread
      obtain rfl : String.ofList cs = s := Except.ok.inj hread
      have hunits : bs.map UInt8.toNat = cs.flatMap units := units_of_strictFrom .between hchars
      apply (List.map_inj_right fun _ _ => UInt8.toNat_inj.mp).mp
      rw [encode_ofList, hunits, List.map_flatMap]
      rfl

/-- What can be read back at all is read back as it was. -/
theorem decodeStrict_encode {s : String} (hok : (decodeStrict (encode s)).isOk = true) :
    decodeStrict (encode s) = .ok s := by
  cases hread : decodeStrict (encode s) with
  | error fault =>
      rw [hread] at hok
      cases hok
  | ok text => rw [encode_inj (encode_of_decodeStrict hread)]

end Utf8

namespace Lines

/-! ## Line ends -/

/-- Line ends are made the same from the first carriage return on. -/
theorem unify_append {front : List Char} (hfront : '\r' ∉ front) (rest : List Char) :
    unify (front ++ rest) = front ++ unify rest := by
  induction front with
  | nil => rfl
  | cons c front ih =>
      have hc : c ≠ '\r' := fun heq => hfront (heq ▸ List.mem_cons_self)
      rw [List.cons_append, unify, ih fun hmem => hfront (List.mem_cons_of_mem c hmem)]
      · rfl
      · exact fun _ heq _ => hc heq
      · exact hc

/-- Line ends behind a text without carriage returns are read by themselves. -/
theorem universal_append {front : String} (hfront : '\r' ∉ front.toList) (rest : String) :
    universal (front ++ rest) = front ++ universal rest := by
  rw [universal, String.toList_append, unify_append hfront, String.ofList_append,
    String.ofList_toList, universal]

theorem universal_eq_self {s : String} (hs : '\r' ∉ s.toList) : universal s = s := by
  have hempty : universal "" = "" := by simp [universal, unify]
  have happend := universal_append hs ""
  rwa [hempty, String.append_empty] at happend

/-- No carriage return is left. -/
theorem not_mem_unify (cs : List Char) : '\r' ∉ unify cs := by
  fun_induction unify cs with
  | case1 => exact List.not_mem_nil
  | case2 cs ih => simp [ih]
  | case3 cs _ ih => simp [ih]
  | case4 c cs _ hc ih => simp [ih, Ne.symm hc]

/-- No carriage return is left once a text has been read. -/
theorem not_mem_universal (s : String) : '\r' ∉ (universal s).toList := by
  rw [universal, String.toList_ofList]
  exact not_mem_unify s.toList

end Lines

end Cyclomatic
