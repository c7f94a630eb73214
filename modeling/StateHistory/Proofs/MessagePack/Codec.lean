import Mathlib.Algebra.Group.Nat.Defs
import StateHistory.MessagePack.Decode
import StateHistory.MessagePack.Encode

/-!
# What is written can be read

Every form that numbers, strings, arrays and records are written in is read as what it stands for,
whatever bytes follow: `Reads`. Numbers and lengths are written in the narrowest of several forms;
the forms meet in the head that they are read as (`reads_encodeInt`, `reads_encodeStringHead` and
their like), so that nothing above the heads sees a width.
-/

namespace StateHistory.MessagePack

/-- The decoder takes exactly `bytes` from the front, whatever follows, and gives `a`. -/
def Reads (d : Decoder α) (bytes : List UInt8) (a : α) : Prop :=
  ∀ rest, d (bytes ++ rest) = some (a, rest)

section
variable {α β : Type} {d : Decoder α} {xs ys : List UInt8} {a : α} {b : β}

theorem reads_pure (a : α) : Reads (pure a) [] a := fun _ => rfl

theorem Reads.bind {f : α → Decoder β} (h : Reads d xs a) (h' : Reads (f a) ys b) :
    Reads (d >>= f) (xs ++ ys) b := by
  intro rest
  change (d (xs ++ ys ++ rest)).bind (fun p => f p.1 p.2) = _
  rw [List.append_assoc, h, Option.bind_some, h']

theorem Reads.map (h : Reads d xs a) (f : α → β) : Reads (f <$> d) xs (f a) := by
  have := h.bind (f := fun a => pure (f a)) (reads_pure (f a))
  rwa [List.append_nil] at this

theorem reads_lift {o : Option α} (h : o = some a) : Reads (liftM o) [] a := by
  subst h
  exact fun _ => rfl

/-- A decoder that goes on without reading any more. -/
theorem Reads.bind_nil {f : α → Decoder β} (h : Reads d xs a) (h' : Reads (f a) [] b) :
    Reads (d >>= f) xs b := by
  have := h.bind h'
  rwa [List.append_nil] at this

end

/-! ## Bytes and numbers of a given width -/

theorem length_bigEndian : ∀ (width n : Nat), (bigEndian width n).length = width
  | 0, _ => rfl
  | width + 1, n => by simp [bigEndian, length_bigEndian width]

theorem ofBigEndian_bigEndian : ∀ (width n : Nat), ofBigEndian (bigEndian width n) = n % 256 ^ width
  | 0, n => by simp [bigEndian, ofBigEndian, Nat.mod_one]
  | width + 1, n => by
    have ih := ofBigEndian_bigEndian width (n / 256)
    unfold ofBigEndian at ih ⊢
    rw [bigEndian, List.foldl_append, ih]
    simp only [List.foldl_cons, List.foldl_nil, UInt8.toNat_ofNat']
    have hsplit : n % 256 ^ (width + 1) = n % 256 + 256 * (n / 256 % 256 ^ width) := by
      rw [Nat.pow_succ, Nat.mul_comm (256 ^ width), Nat.mod_mul]
    omega

theorem reads_takeBytes (bytes : List UInt8) : Reads (takeBytes bytes.length) bytes bytes := by
  intro rest
  simp [takeBytes]

theorem reads_takeNat (width : Nat) {n : Nat} (h : n < 256 ^ width) :
    Reads (takeNat width) (bigEndian width n) n := by
  have hb := reads_takeBytes (bigEndian width n)
  rw [length_bigEndian] at hb
  have := hb.map ofBigEndian
  rwa [ofBigEndian_bigEndian, Nat.mod_eq_of_lt h] at this

/-- A negative number in two's complement. -/
theorem reads_takeSigned (width count : Nat) {n : Int} (hc : count = 256 ^ width)
    (hlo : -(count : Int) ≤ 2 * n) (hneg : n < 0) :
    Reads (takeSigned width) (bigEndian width (n + count).toNat) n := by
  have hlt : (n + count).toNat < 256 ^ width := by omega
  refine (reads_takeNat _ hlt).bind_nil ?_
  have hpow : Nat.pow 256 width = count := hc.symm
  have hhalf : ¬ (n + count).toNat < count / 2 := by omega
  have hval : ((n + count).toNat : Int) - count = n := by omega
  simp only [hpow, hhalf, ↓reduceIte, hval]
  exact reads_pure n

/-! ## Heads -/

theorem reads_takeHead {b : UInt8} {d : Decoder Head} {bytes : List UInt8} {h : Head}
    (hb : headOf b.toNat = d) (hd : Reads d bytes h) : Reads takeHead (b :: bytes) h := by
  intro rest
  change headOf b.toNat (bytes ++ rest) = _
  rw [hb]
  exact hd rest

/-- A head of a single byte. -/
theorem reads_takeHead_single {n : Nat} {h : Head} (hn : n < 256) (hb : headOf n = pure h) :
    Reads takeHead [UInt8.ofNat n] h := by
  refine reads_takeHead ?_ (reads_pure h)
  rw [UInt8.toNat_ofNat', Nat.mod_eq_of_lt hn]
  exact hb

/-- The head that a whole number is read as. -/
def intHead (n : Int) : Head := if 0 ≤ n then .nat n.toNat else .int n

theorem intHead_ne_nil (n : Int) : intHead n ≠ .nil := by
  unfold intHead
  split <;> simp

theorem reads_encodeNat {n : Nat} (h : n < 18446744073709551616) :
    Reads takeHead (encodeNat n) (.nat n) := by
  unfold encodeNat
  by_cases h1 : n < 128
  · rw [if_pos h1]
    exact reads_takeHead_single (by omega) (by simp [headOf, h1])
  rw [if_neg h1]
  by_cases h2 : n < 256
  · rw [if_pos h2]
    exact reads_takeHead rfl ((reads_takeNat 1 (by omega)).map Head.nat)
  rw [if_neg h2]
  by_cases h3 : n < 65536
  · rw [if_pos h3]
    exact reads_takeHead rfl ((reads_takeNat 2 (by omega)).map Head.nat)
  rw [if_neg h3]
  by_cases h4 : n < 4294967296
  · rw [if_pos h4]
    exact reads_takeHead rfl ((reads_takeNat 4 (by omega)).map Head.nat)
  rw [if_neg h4]
  exact reads_takeHead rfl ((reads_takeNat 8 (by omega)).map Head.nat)

theorem reads_encodeInt {n : Int} (hlo : -9223372036854775808 ≤ n)
    (hhi : n < 18446744073709551616) :
    Reads takeHead (encodeInt n) (intHead n) := by
  unfold encodeInt intHead
  by_cases h0 : 0 ≤ n
  · rw [if_pos h0, if_pos h0]
    exact reads_encodeNat (by omega)
  rw [if_neg h0, if_neg h0]
  by_cases h1 : -32 ≤ n
  · rw [if_pos h1]
    refine reads_takeHead_single (by omega) ?_
    have hb : ((n + 256).toNat : Int) - 256 = n := by omega
    unfold headOf
    rw [if_neg (by omega), if_neg (by omega), if_neg (by omega), if_neg (by omega),
      if_pos (by omega), hb]
  rw [if_neg h1]
  by_cases h2 : -128 ≤ n
  · rw [if_pos h2]
    exact reads_takeHead rfl ((reads_takeSigned 1 256 rfl (by omega) (by omega)).map Head.int)
  rw [if_neg h2]
  by_cases h3 : -32768 ≤ n
  · rw [if_pos h3]
    exact reads_takeHead rfl ((reads_takeSigned 2 65536 rfl (by omega) (by omega)).map Head.int)
  rw [if_neg h3]
  by_cases h4 : -2147483648 ≤ n
  · rw [if_pos h4]
    exact reads_takeHead rfl
      ((reads_takeSigned 4 4294967296 rfl (by omega) (by omega)).map Head.int)
  rw [if_neg h4]
  exact reads_takeHead rfl
    ((reads_takeSigned 8 18446744073709551616 rfl (by omega) (by omega)).map Head.int)

theorem reads_encodeNil : Reads takeHead encodeNil .nil := reads_takeHead rfl (reads_pure _)

theorem reads_encodeDoubleHead (bits : UInt64) :
    Reads takeHead (encodeDouble bits) (.double bits) := by
  have hlt : bits.toNat < 256 ^ 8 := bits.toNat_lt
  have := (reads_takeNat _ hlt).map fun n => Head.double (UInt64.ofNat n)
  rw [UInt64.ofNat_toNat] at this
  exact reads_takeHead rfl this

theorem reads_encodeStringHead {n : Nat} (h : n < 4294967296) :
    Reads takeHead (encodeStringHead n) (.string n) := by
  unfold encodeStringHead
  by_cases h1 : n < 32
  · rw [if_pos h1]
    refine reads_takeHead_single (by omega) ?_
    unfold headOf
    rw [if_neg (by omega), if_neg (by omega), if_neg (by omega), if_pos (by omega),
      Nat.add_sub_cancel_left]
  rw [if_neg h1]
  by_cases h2 : n < 256
  · rw [if_pos h2]
    exact reads_takeHead rfl ((reads_takeNat 1 (by omega)).map Head.string)
  rw [if_neg h2]
  by_cases h3 : n < 65536
  · rw [if_pos h3]
    exact reads_takeHead rfl ((reads_takeNat 2 (by omega)).map Head.string)
  rw [if_neg h3]
  exact reads_takeHead rfl ((reads_takeNat 4 (by omega)).map Head.string)

theorem reads_encodeArrayHead {n : Nat} (h : n < 4294967296) :
    Reads takeHead (encodeArrayHead n) (.array n) := by
  unfold encodeArrayHead
  by_cases h1 : n < 16
  · rw [if_pos h1]
    refine reads_takeHead_single (by omega) ?_
    unfold headOf
    rw [if_neg (by omega), if_neg (by omega), if_pos (by omega), Nat.add_sub_cancel_left]
  rw [if_neg h1]
  by_cases h2 : n < 65536
  · rw [if_pos h2]
    exact reads_takeHead rfl ((reads_takeNat 2 (by omega)).map Head.array)
  rw [if_neg h2]
  exact reads_takeHead rfl ((reads_takeNat 4 (by omega)).map Head.array)

theorem reads_encodeMapHead {n : Nat} (h : n < 4294967296) :
    Reads takeHead (encodeMapHead n) (.map n) := by
  unfold encodeMapHead
  by_cases h1 : n < 16
  · rw [if_pos h1]
    refine reads_takeHead_single (by omega) ?_
    unfold headOf
    rw [if_neg (by omega), if_pos (by omega), Nat.add_sub_cancel_left]
  rw [if_neg h1]
  by_cases h2 : n < 65536
  · rw [if_pos h2]
    exact reads_takeHead rfl ((reads_takeNat 2 (by omega)).map Head.map)
  rw [if_neg h2]
  exact reads_takeHead rfl ((reads_takeNat 4 (by omega)).map Head.map)

/-! ## Values -/

section
variable {α β : Type}

/-- A length that 32 bits hold. -/
def FitsLength (n : Nat) : Prop := n < 4294967296

instance (n : Nat) : Decidable (FitsLength n) := inferInstanceAs (Decidable (_ < _))

/-- A string whose bytes can be counted in 32 bits. -/
def FitsString (s : String) : Prop := FitsLength (utf8 s).length

instance (s : String) : Decidable (FitsString s) := inferInstanceAs (Decidable (FitsLength _))

theorem intOf_intHead {low high n : Int} (hlo : low ≤ n) (hhi : n ≤ high) :
    intOf low high (intHead n) = pure n := by
  unfold intHead
  by_cases h0 : 0 ≤ n
  · have : ((n.toNat : Nat) : Int) = n := Int.toNat_of_nonneg h0
    simp [h0, intOf, this, hlo, hhi]
  · simp [h0, intOf, hlo, hhi]

theorem reads_decodeInt (low high : Int) {n : Int} (hlo : low ≤ n) (hhi : n ≤ high)
    (hl : -9223372036854775808 ≤ n) (hh : n < 18446744073709551616) :
    Reads (decodeInt low high) (encodeInt n) n := by
  refine (reads_encodeInt hl hh).bind_nil ?_
  rw [intOf_intHead hlo hhi]
  exact reads_pure n

theorem encodeInt_natCast (n : Nat) : encodeInt n = encodeNat n := by simp [encodeInt]

theorem reads_decodeNat (high : Nat) {n : Nat} (hhi : n ≤ high) (hh : n < 18446744073709551616) :
    Reads (decodeNat high) (encodeNat n) n := by
  have :=
    (reads_decodeInt 0 high (n := n) (by omega) (by omega) (by omega) (by omega)).map Int.toNat
  rwa [encodeInt_natCast, Int.toNat_natCast] at this

theorem reads_decodeDouble (bits : UInt64) : Reads decodeDouble (encodeDouble bits) bits :=
  (reads_encodeDoubleHead bits).bind_nil (reads_pure bits)

theorem stringOfBytes_utf8 (s : String) : stringOfBytes (utf8 s) = some s := by
  have hbytes : (⟨(utf8 s).toArray⟩ : ByteArray) = s.toByteArray := by simp [utf8]
  rw [stringOfBytes, hbytes, String.fromUTF8?, dif_pos s.isValidUTF8]
  rfl

theorem reads_decodeString {s : String} (h : FitsString s) :
    Reads decodeString (encodeString s) s := by
  refine (reads_encodeStringHead h).bind ?_
  exact (reads_takeBytes _).bind_nil (reads_lift (stringOfBytes_utf8 s))

theorem reads_decodeOption_none (item : Head → Decoder α) :
    Reads (decodeOption item) encodeNil none :=
  reads_encodeNil.bind_nil (reads_pure none)

theorem reads_decodeOption_some {item : Head → Decoder α} {bytes : List UInt8} {head : Head} {a : α}
    (hh : Reads takeHead bytes head) (hne : head ≠ .nil) (ha : Reads (item head) [] a) :
    Reads (decodeOption item) bytes (some a) := by
  refine hh.bind_nil ?_
  cases head with
  | nil => exact absurd rfl hne
  | _ => exact ha.bind_nil (reads_pure _)

theorem reads_times {item : Decoder α} {encode : α → List UInt8} {as : List α}
    (h : ∀ a ∈ as, Reads item (encode a) a) :
    Reads (times item as.length) (as.flatMap encode) as := by
  induction as with
  | nil => exact reads_pure []
  | cons a as ih =>
    refine (h a (by simp)).bind ?_
    exact (ih fun b hb => h b (by simp [hb])).bind_nil (reads_pure (a :: as))

theorem reads_decodeArray {item : Decoder α} {encode : α → List UInt8} {as : List α}
    (hl : FitsLength as.length) (h : ∀ a ∈ as, Reads item (encode a) a) :
    Reads (decodeArray item) (encodeArray encode as) as :=
  (reads_encodeArrayHead hl).bind (reads_times h)

/-! ## Records -/

/-- A name as a member of a map gives the place that it has among the known names. -/
theorem reads_placeFrom (names : List String) {name : String} (h : FitsString name) :
    Reads (do placeFrom names (← takeHead)) (encodeString name) (placeOf names (utf8 name)) :=
  (reads_encodeStringHead h).bind ((reads_takeBytes _).map (placeOf names))

/-- A member that is a field: its value is read by what the field at that place asks for. -/
theorem Fields.reads_member {f : Fields β} {depth n : Nat} {b b' final : β} {name : String}
    (place : Nat) {value : List UInt8} {members : List (String × List UInt8)}
    (hname : FitsString name) (hplace : placeOf f.names (utf8 name) = place)
    (hlt : place < f.names.length) (hvalue : Reads (f.read place b) value b')
    (hmore : Reads (f.members depth n b')
      (members.flatMap fun (name, value) => encodeString name ++ value) final) :
    Reads (f.members depth (n + 1) b)
      (((name, value) :: members).flatMap fun (name, value) => encodeString name ++
        value) final := by
  have hp := reads_placeFrom f.names hname
  rw [hplace] at hp
  have hstep := hp.bind (f := fun place =>
    if place < f.names.length then do f.members depth n (← f.read place b)
    else do
      skip depth
      f.members depth n b) (by rw [if_pos hlt]; exact hvalue.bind hmore)
  rw [List.flatMap_cons, List.append_assoc]
  unfold Fields.members
  simpa only [bind_assoc] using hstep

theorem Fields.reads_members_nil {f : Fields β} {depth : Nat} (b : β) :
    Reads (f.members depth 0 b) [] b :=
  reads_pure b

theorem Fields.reads_decode {f : Fields β} {depth : Nat} {start final : β}
    {members : List (String × List UInt8)} (hn : FitsLength members.length)
    (h : Reads (f.members depth members.length start)
      (members.flatMap fun (name, value) => encodeString name ++ value) final) :
    Reads (f.decode depth start) (encodeMap members) final :=
  (reads_encodeMapHead hn).bind h

theorem reads_once {item : Decoder α} {bytes : List UInt8} {a : α} (h : Reads item bytes a) :
    Reads (once none item) bytes (some a) := h.map some

end

end StateHistory.MessagePack
