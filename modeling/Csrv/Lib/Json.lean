import Mathlib.Algebra.Order.BigOperators.Group.List
import Mathlib.Algebra.Order.Ring.Int
import Mathlib.Data.List.Basic

/-!
# JSON texts

The grammar of RFC 8259 on bytes, with what its texts denote. A string denotes a list of
characters; an escape of a surrogate that is not part of a pair denotes none.

Of an object whose values are strings: `text_join` writes one down, `Text.bytes` says which bytes
its texts are made of, and `Text.length_ge` that no text is shorter than its strings with their
shortest escapes.
-/

namespace Json

/-- The UTF-8 encoding. -/
def utf8 (cs : List Char) : List UInt8 := cs.flatMap String.utf8EncodeChar

inductive Value
  | null
  | bool (b : Bool)
  | number (text : List UInt8)
  | string (cs : List Char)
  | array (vs : List Value)
  | object (ms : List (List Char × Value))

/-! ## Grammar -/

def IsWs (b : UInt8) : Prop := b = 0x20 ∨ b = 0x09 ∨ b = 0x0a ∨ b = 0x0d

def Ws (s : List UInt8) : Prop := ∀ b ∈ s, IsWs b

/-- The letters of the short escapes with the characters they denote. -/
def escapes : List (UInt8 × ℕ) :=
  [(0x22, 0x22), (0x5c, 0x5c), (0x2f, 0x2f), (0x62, 0x08), (0x66, 0x0c), (0x6e, 0x0a),
    (0x72, 0x0d), (0x74, 0x09)]

def hexDigit (b : UInt8) : Option ℕ :=
  if 0x30 ≤ b ∧ b ≤ 0x39 then some (b.toNat - 0x30)
  else if 0x41 ≤ b ∧ b ≤ 0x46 then some (b.toNat - 0x41 + 10)
  else if 0x61 ≤ b ∧ b ≤ 0x66 then some (b.toNat - 0x61 + 10)
  else none

/-- The number that four hexadecimal digits denote. -/
inductive Hex4 : List UInt8 → ℕ → Prop
  | mk {a b c d : UInt8} {i j k l : ℕ} : hexDigit a = some i → hexDigit b = some j →
      hexDigit c = some k → hexDigit d = some l →
      Hex4 [a, b, c, d] (16 * (16 * (16 * i + j) + k) + l)

/-- A character of a string. -/
inductive StringChar : List UInt8 → Char → Prop
  | unescaped {c : Char} : 0x20 ≤ c.toNat → c.toNat ≠ 0x22 → c.toNat ≠ 0x5c →
      StringChar (String.utf8EncodeChar c) c
  | escape {e : UInt8} {c : Char} : (e, c.toNat) ∈ escapes → StringChar [0x5c, e] c
  | hex {ds : List UInt8} {c : Char} : Hex4 ds c.toNat → StringChar (0x5c :: 0x75 :: ds) c
  | pair {ds ds' : List UInt8} {hi lo : ℕ} {c : Char} : Hex4 ds hi → Hex4 ds' lo →
      0xd800 ≤ hi → hi < 0xdc00 → 0xdc00 ≤ lo → lo < 0xe000 →
      c.toNat = 0x10000 + (hi - 0xd800) * 0x400 + (lo - 0xdc00) →
      StringChar (0x5c :: 0x75 :: ds ++ 0x5c :: 0x75 :: ds') c

inductive Chars : List UInt8 → List Char → Prop
  | nil : Chars [] []
  | cons {b bs : List UInt8} {c : Char} {cs : List Char} :
      StringChar b c → Chars bs cs → Chars (b ++ bs) (c :: cs)

inductive Str : List UInt8 → List Char → Prop
  | mk {bs : List UInt8} {cs : List Char} : Chars bs cs → Str (0x22 :: bs ++ [0x22]) cs

def Digits (s : List UInt8) : Prop := s ≠ [] ∧ ∀ b ∈ s, 0x30 ≤ b ∧ b ≤ 0x39

inductive Number : List UInt8 → Prop
  | mk {minus int frac exp : List UInt8} :
      (minus = [] ∨ minus = [0x2d]) →
      (int = [0x30] ∨ Digits int ∧ int.head? ≠ some 0x30) →
      (frac = [] ∨ ∃ ds, Digits ds ∧ frac = 0x2e :: ds) →
      (exp = [] ∨ ∃ e sign ds, (e = 0x65 ∨ e = 0x45) ∧
        (sign = [] ∨ sign = [0x2b] ∨ sign = [0x2d]) ∧ Digits ds ∧ exp = e :: sign ++ ds) →
      Number (minus ++ int ++ frac ++ exp)

/-- Items with commas between them, for texts `R` of an item. -/
inductive SepBy {α : Type} (R : List UInt8 → α → Prop) : List UInt8 → List α → Prop
  | one {w b w' : List UInt8} {a : α} : Ws w → R b a → Ws w' → SepBy R (w ++ b ++ w') [a]
  | cons {w b w' bs : List UInt8} {a : α} {as : List α} :
      Ws w → R b a → Ws w' → SepBy R bs as → SepBy R (w ++ b ++ w' ++ 0x2c :: bs) (a :: as)

/-- A name and a value, for texts `R` of a value. -/
inductive Member {α : Type} (R : List UInt8 → α → Prop) : List UInt8 → List Char × α → Prop
  | mk {n w w' b : List UInt8} {cs : List Char} {a : α} :
      Str n cs → Ws w → Ws w' → R b a → Member R (n ++ w ++ 0x3a :: w' ++ b) (cs, a)

inductive ValueText : List UInt8 → Value → Prop
  | null : ValueText [0x6e, 0x75, 0x6c, 0x6c] .null
  | false : ValueText [0x66, 0x61, 0x6c, 0x73, 0x65] (.bool false)
  | true : ValueText [0x74, 0x72, 0x75, 0x65] (.bool true)
  | number {bs : List UInt8} : Number bs → ValueText bs (.number bs)
  | string {bs : List UInt8} {cs : List Char} : Str bs cs → ValueText bs (.string cs)
  | emptyArray {w : List UInt8} : Ws w → ValueText (0x5b :: w ++ [0x5d]) (.array [])
  | array {bs : List UInt8} {vs : List Value} :
      SepBy ValueText bs vs → ValueText (0x5b :: bs ++ [0x5d]) (.array vs)
  | emptyObject {w : List UInt8} : Ws w → ValueText (0x7b :: w ++ [0x7d]) (.object [])
  | object {bs : List UInt8} {ms : List (List Char × Value)} :
      SepBy (Member ValueText) bs ms → ValueText (0x7b :: bs ++ [0x7d]) (.object ms)

/-- A JSON text and its value. -/
inductive Text : List UInt8 → Value → Prop
  | mk {w b w' : List UInt8} {v : Value} : Ws w → ValueText b v → Ws w' → Text (w ++ b ++ w') v

/-- An object whose values are strings. -/
def strings (ms : List (List Char × List Char)) : Value :=
  .object (ms.map fun m => (m.1, .string m.2))

/-! ## Characters -/

section Chars

variable {b bs : List UInt8} {c : Char} {cs : List Char}

theorem utf8EncodeChar_ascii (h : c.toNat < 0x80) :
    String.utf8EncodeChar c = [UInt8.ofNat c.toNat] := by
  unfold String.utf8EncodeChar
  exact if_pos (Nat.le_of_lt_succ h)

/-- The bytes of a character outside ASCII. -/
theorem utf8EncodeChar_high (h : 0x80 ≤ c.toNat) : ∀ x ∈ String.utf8EncodeChar c, 0x80 ≤ x := by
  have hofNat : ∀ n, 0x80 ≤ n → n < 0x100 → (0x80 : UInt8) ≤ UInt8.ofNat n := fun n h₁ h₂ => by
    rw [UInt8.le_iff_toNat_le, UInt8.toNat_ofNat_of_lt' h₂]
    exact h₁
  have hc : c.val.toNat < 0x110000 := by
    have := c.valid
    simp only [UInt32.isValidChar, Nat.isValidChar] at this
    omega
  unfold String.utf8EncodeChar
  have h0 : ¬ c.val.toNat ≤ 0x7f := fun hle => absurd h (Nat.not_le.mpr (Nat.lt_succ_of_le hle))
  intro x hx
  simp only [if_neg h0] at hx
  split_ifs at hx
  all_goals
    simp only [List.mem_cons, List.not_mem_nil, or_false] at hx
    rcases hx with rfl | hx
    · apply hofNat <;> omega
  · obtain rfl := hx
    apply hofNat <;> omega
  · rcases hx with rfl | rfl <;> apply hofNat <;> omega
  · rcases hx with rfl | rfl | rfl <;> apply hofNat <;> omega

theorem hexDigit_ge {x : UInt8} {i : ℕ} (h : hexDigit x = some i) : 0x20 ≤ x := by
  unfold hexDigit at h
  split_ifs at h with h₁ h₂ h₃
  · exact UInt8.le_trans (by decide) h₁.1
  · exact UInt8.le_trans (by decide) h₂.1
  · exact UInt8.le_trans (by decide) h₃.1

theorem Hex4.length_eq {n : ℕ} (h : Hex4 b n) : b.length = 4 := by
  obtain ⟨-, -, -, -⟩ := h
  rfl

theorem Hex4.bytes {n : ℕ} (h : Hex4 b n) : ∀ x ∈ b, 0x20 ≤ x := by
  obtain ⟨ha, hb, hc, hd⟩ := h
  simp [hexDigit_ge ha, hexDigit_ge hb, hexDigit_ge hc, hexDigit_ge hd]

/-- The characters that a short escape denotes and that cannot stand for themselves. -/
def special : List ℕ := [0x22, 0x5c, 0x08, 0x0c, 0x0a, 0x0d, 0x09]

/-- The length of the shortest text of a character. -/
def shortest (c : Char) : ℕ :=
  if c.toNat ∈ special then 2 else if c.toNat < 0x20 then 6 else c.utf8Size

theorem shortest_le_six (c : Char) : shortest c ≤ 6 := by
  have := c.utf8Size_le_four
  unfold shortest
  split_ifs <;> omega

theorem StringChar.length_ge (h : StringChar b c) : shortest c ≤ b.length := by
  cases h with
  | unescaped h₁ h₂ h₃ =>
    rw [String.length_utf8EncodeChar, shortest, if_neg, if_neg (Nat.not_lt.mpr h₁)]
    simp only [special, List.mem_cons, List.not_mem_nil, or_false]
    omega
  | escape h =>
    show shortest c ≤ 2
    have hc : c.toNat ∈ special ∨ c.toNat = 0x2f := by
      have hall : ∀ p ∈ escapes, p.2 ∈ special ∨ p.2 = 0x2f := by decide
      exact hall _ h
    unfold shortest
    rcases hc with hc | hc
    · rw [if_pos hc]
    · rw [hc, if_neg (by decide), if_neg (by decide), ← String.length_utf8EncodeChar,
        utf8EncodeChar_ascii (by omega)]
      exact Nat.le_succ 1
  | hex h =>
    rw [List.length_cons, List.length_cons, h.length_eq]
    exact shortest_le_six c
  | pair h h' =>
    rw [List.length_append, List.length_cons, List.length_cons, h.length_eq]
    exact (shortest_le_six c).trans (Nat.le_add_right _ _)

theorem StringChar.bytes (h : StringChar b c) : ∀ x ∈ b, 0x20 ≤ x := by
  cases h with
  | unescaped h₁ h₂ h₃ =>
    intro x hx
    by_cases hc : c.toNat < 0x80
    · rw [utf8EncodeChar_ascii hc, List.mem_singleton] at hx
      rw [hx, UInt8.le_iff_toNat_le, UInt8.toNat_ofNat_of_lt' (Nat.lt_trans hc (by decide))]
      exact h₁
    · exact UInt8.le_trans (by decide) (utf8EncodeChar_high (Nat.not_lt.mp hc) x hx)
  | escape h =>
    have hall : ∀ p ∈ escapes, 0x20 ≤ p.1 := by decide
    simpa using hall _ h
  | hex h =>
    simpa using h.bytes
  | pair h h' =>
    simpa [or_imp, forall_and] using ⟨h.bytes, h'.bytes⟩

theorem Chars.length_ge (h : Chars b cs) : (cs.map shortest).sum ≤ b.length := by
  induction h with
  | nil => exact le_rfl
  | cons hc _ ih =>
    rw [List.map_cons, List.sum_cons, List.length_append]
    exact Nat.add_le_add hc.length_ge ih

theorem Chars.bytes (h : Chars b cs) : ∀ x ∈ b, 0x20 ≤ x := by
  induction h with
  | nil => exact fun x hx => absurd hx List.not_mem_nil
  | cons hc _ ih => exact fun x hx => (List.mem_append.mp hx).elim (hc.bytes x) (ih x)

/-- The length of the shortest text of a string. -/
def strLength (cs : List Char) : ℕ := (cs.map shortest).sum + 2

theorem Str.length_ge (h : Str b cs) : strLength cs ≤ b.length := by
  obtain ⟨hc⟩ := h
  have := hc.length_ge
  simp only [List.cons_append, List.length_cons, List.length_append, List.length_nil]
  unfold strLength
  omega

theorem Str.bytes (h : Str b cs) : ∀ x ∈ b, 0x20 ≤ x := by
  obtain ⟨hc⟩ := h
  simpa [or_imp, forall_and] using hc.bytes

end Chars

/-! ## Items -/

section Items

variable {α : Type} {R : List UInt8 → α → Prop} {P : UInt8 → Prop} {bs : List UInt8} {as : List α}
  {len : α → ℕ}

theorem SepBy.length_ge (hR : ∀ b a, a ∈ as → R b a → len a ≤ b.length) (h : SepBy R bs as) :
    (as.map fun a => len a + 1).sum ≤ bs.length + 1 := by
  induction h with
  | one _ ha _ =>
    have := hR _ _ List.mem_cons_self ha
    simp only [List.map_singleton, List.sum_singleton, List.length_append]
    omega
  | cons _ ha _ _ ih =>
    have := hR _ _ List.mem_cons_self ha
    have := ih fun b a hm => hR b a (List.mem_cons_of_mem _ hm)
    simp only [List.map_cons, List.sum_cons, List.length_append, List.length_cons]
    omega

theorem SepBy.bytes (hws : ∀ x, IsWs x → P x) (hcomma : P 0x2c)
    (hR : ∀ b a, a ∈ as → R b a → ∀ x ∈ b, P x) (h : SepBy R bs as) : ∀ x ∈ bs, P x := by
  induction h with
  | one hw ha hw' =>
    intro x hx
    simp only [List.mem_append] at hx
    rcases hx with (hx | hx) | hx
    · exact hws x (hw x hx)
    · exact hR _ _ List.mem_cons_self ha x hx
    · exact hws x (hw' x hx)
  | cons hw ha hw' _ ih =>
    intro x hx
    simp only [List.mem_append, List.mem_cons] at hx
    rcases hx with ((hx | hx) | hx) | rfl | hx
    · exact hws x (hw x hx)
    · exact hR _ _ List.mem_cons_self ha x hx
    · exact hws x (hw' x hx)
    · exact hcomma
    · exact ih (fun b a hm => hR b a (List.mem_cons_of_mem _ hm)) x hx

theorem sepBy_map {β : Type} {f : β → α} {xs : List β} :
    SepBy R bs (xs.map f) ↔ SepBy (fun b x => R b (f x)) bs xs := by
  constructor
  · intro h
    generalize hl : xs.map f = l at h
    induction h generalizing xs with
    | one hw ha hw' =>
      obtain ⟨x, rfl, rfl⟩ := List.map_eq_singleton_iff.mp hl
      exact .one hw ha hw'
    | cons hw ha hw' _ ih =>
      obtain ⟨x, xs, rfl, rfl, hxs⟩ := List.map_eq_cons_iff.mp hl
      exact .cons hw ha hw' (ih hxs)
  · intro h
    induction h with
    | one hw ha hw' => exact .one hw ha hw'
    | cons hw ha hw' _ ih => exact .cons hw ha hw' ih

theorem ws_nil : Ws [] := fun _ h => absurd h List.not_mem_nil

/-- Items written one after the other. -/
theorem sepBy_join {f : α → List UInt8} (hne : as ≠ []) (hR : ∀ a ∈ as, R (f a) a) :
    SepBy R (List.intercalate [0x2c] (as.map f)) as := by
  induction as with
  | nil => exact absurd rfl hne
  | cons a as ih =>
    have ha := hR a List.mem_cons_self
    cases as with
    | nil => simpa [List.intercalate] using SepBy.one ws_nil ha ws_nil
    | cons a' as =>
      have := ih (List.cons_ne_nil _ _) fun x hx => hR x (List.mem_cons_of_mem a hx)
      simpa [List.intercalate] using SepBy.cons ws_nil ha ws_nil this

end Items

/-! ## Objects of strings -/

section Objects

variable {b : List UInt8} {ms : List (List Char × List Char)}

theorem ValueText.of_string {cs : List Char} (h : ValueText b (.string cs)) : Str b cs := by
  cases h with
  | string h => exact h

/-- A member whose value is a string. -/
def StrMember (b : List UInt8) (m : List Char × List Char) : Prop :=
  Member ValueText b (m.1, .string m.2)

theorem StrMember.mk {n v : List UInt8} {m : List Char × List Char} (hn : Str n m.1)
    (hv : Str v m.2) : StrMember (n ++ 0x3a :: v) m := by
  have h := Member.mk hn ws_nil ws_nil (ValueText.string hv)
  simp only [List.append_nil, List.nil_append, List.cons_append, List.append_assoc] at h
  exact h

theorem StrMember.cases {m : List Char × List Char} (h : StrMember b m) : ∃ n w w' v,
    Str n m.1 ∧ Ws w ∧ Ws w' ∧ Str v m.2 ∧ b = n ++ w ++ 0x3a :: w' ++ v := by
  unfold StrMember at h
  cases h with
  | mk hn hw hw' hv => exact ⟨_, _, _, _, hn, hw, hw', hv.of_string, rfl⟩

theorem StrMember.length_ge {m : List Char × List Char} (h : StrMember b m) :
    strLength m.1 + strLength m.2 + 1 ≤ b.length := by
  obtain ⟨n, w, w', v, hn, -, -, hv, rfl⟩ := h.cases
  have h₁ := hn.length_ge
  have h₂ := hv.length_ge
  simp only [List.length_append, List.length_cons]
  omega

theorem StrMember.bytes {m : List Char × List Char} (h : StrMember b m) :
    ∀ x ∈ b, 0x20 ≤ x ∨ IsWs x := by
  obtain ⟨n, w, w', v, hn, hw, hw', hv, rfl⟩ := h.cases
  intro x hx
  simp only [List.mem_append, List.mem_cons] at hx
  rcases hx with ((hx | hx) | rfl | hx) | hx
  · exact .inl (hn.bytes x hx)
  · exact .inr (hw x hx)
  · exact .inl (by decide)
  · exact .inr (hw' x hx)
  · exact .inl (hv.bytes x hx)

theorem Text.of_strings (h : Text b (strings ms)) : ∃ w t w', Ws w ∧ Ws w' ∧
    b = w ++ (0x7b :: t ++ [0x7d]) ++ w' ∧ (ms = [] ∧ Ws t ∨ SepBy StrMember t ms) := by
  obtain ⟨hw, hv, hw'⟩ := h
  unfold strings at hv
  generalize hms : (ms.map fun m => (m.1, Value.string m.2)) = l at hv
  cases hv with
  | emptyObject ht => exact ⟨_, _, _, hw, hw', rfl, .inl ⟨List.map_eq_nil_iff.mp hms, ht⟩⟩
  | object ht =>
    subst hms
    have ht' := sepBy_map.mp ht
    exact ⟨_, _, _, hw, hw', rfl, .inr ht'⟩

/-- The length of the shortest text of an object. -/
def objectLength (ms : List (List Char × List Char)) : ℕ :=
  (ms.map fun m => strLength m.1 + strLength m.2 + 1 + 1).sum + 1

/-- **Length.** -/
theorem Text.length_ge (h : Text b (strings ms)) : objectLength ms ≤ b.length := by
  obtain ⟨w, t, w', -, -, rfl, ht⟩ := h.of_strings
  have hb : t.length + 2 ≤ (w ++ (0x7b :: t ++ [0x7d]) ++ w').length := by
    simp only [List.length_append, List.length_cons, List.length_nil]
    omega
  apply le_trans _ hb
  unfold objectLength
  rcases ht with ⟨rfl, -⟩ | ht
  · simp
  · have := ht.length_ge fun b m _ hm => StrMember.length_ge hm
    omega

/-- **Bytes.** -/
theorem Text.bytes (h : Text b (strings ms)) : ∀ x ∈ b, 0x20 ≤ x ∨ IsWs x := by
  obtain ⟨w, t, w', hw, hw', rfl, ht⟩ := h.of_strings
  have ht : ∀ x ∈ t, 0x20 ≤ x ∨ IsWs x := by
    rcases ht with ⟨-, ht⟩ | ht
    · exact fun x hx => .inr (ht x hx)
    · exact ht.bytes (fun x => .inr) (.inl (by decide)) fun b m _ hm => StrMember.bytes hm
  intro x hx
  simp only [List.mem_append, List.mem_cons, List.not_mem_nil, or_false] at hx
  rcases hx with (hx | (rfl | hx) | rfl) | hx
  · exact .inr (hw x hx)
  · exact .inl (by decide)
  · exact ht x hx
  · exact .inl (by decide)
  · exact .inr (hw' x hx)

/-- **Writing.** -/
theorem text_join {f : List Char × List Char → List UInt8} (hne : ms ≠ [])
    (hR : ∀ m ∈ ms, StrMember (f m) m) :
    Text (0x7b :: List.intercalate [0x2c] (ms.map f) ++ [0x7d]) (strings ms) := by
  have h := ValueText.object (sepBy_map.mpr (sepBy_join hne hR))
  simpa [strings] using Text.mk ws_nil h ws_nil

end Objects

end Json
