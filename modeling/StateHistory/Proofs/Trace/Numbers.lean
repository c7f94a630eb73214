import Mathlib.Data.List.Basic
import StateHistory.Trace.Lines

/-!
# Lines and their numbers

Asked again and again, also after failures, a source of lines goes through the lines of its input in
order: a line gives an event, a failure, or nothing, and then the next one is looked at. The number
in a failure is not that of the line in the input. A line that is no text fails before it is
counted, so lines behind it are reported with a number that is too small (`lines_in_order`).
-/

namespace StateHistory

/-- What a line is to the source: no text, a line to be passed over, an event, or a text that is
none. -/
inductive LineKind where
  | unreadable
  | skipped
  | event (e : Event)
  | broken

/-- What the source gives for a line of a kind, under a number. -/
def LineKind.reads (label : String) (number : Nat) : LineKind → List Read
  | unreadable => [.failure (.unreadable label)]
  | skipped => []
  | event e => [.event e]
  | broken => [.failure (.invalidEvent label number)]

namespace LineCursor

/-- The lines of some bytes. Each ends with a newline, the last one perhaps with the input. -/
def lines : List UInt8 → List (List UInt8)
  | [] => []
  | b :: bytes =>
    if b = newline then [b] :: lines bytes
    else
      match lines bytes with
      | [] => [[b]]
      | line :: rest => (b :: line) :: rest

/-- A line is blank, or a comment, if that is so without the blanks at its ends. -/
def kindOf (line : List UInt8) : LineKind :=
  match String.fromUTF8? ⟨line.toArray⟩ with
  | none => .unreadable
  | some text =>
    match Text.trim text.toList with
    | [] => .skipped
    | '#' :: _ => .skipped
    | cs =>
      match Event.parse? cs with
      | some e => .event e
      | none => .broken

/-- Is the line a text? -/
def isText (line : List UInt8) : Bool := (String.fromUTF8? ⟨line.toArray⟩).isSome

/-- The number under which a line is reported: how many lines of text there are up to it. -/
def numberOf (ls : List (List UInt8)) (i : Nat) : Nat := (ls.take (i + 1)).countP isText

/-- What a source gives for some lines, each under its number. -/
def readsOf (label : String) (number : Nat → Nat) (ls : List (List UInt8)) : List Read :=
  (ls.mapIdx fun i line => (kindOf line).reads label (number i)).flatten

/-- What the source gives for the lines ahead. -/
def pending (c : LineCursor) : List Read :=
  readsOf c.label (fun i => c.counted + numberOf (lines c.ahead) i) (lines c.ahead)

/-! ## Lines -/

section
variable {c : LineCursor} {bytes line : List UInt8} {ls : List (List UInt8)} {label : String}
  {i j n : Nat}

theorem splitLine_newline (bytes : List UInt8) :
    splitLine (newline :: bytes) = ([newline], bytes) := by
  simp [splitLine]

theorem splitLine_of_ne {b : UInt8} (h : b ≠ newline) (bytes : List UInt8) :
    splitLine (b :: bytes) = (b :: (splitLine bytes).1, (splitLine bytes).2) := by
  have hdrop : (b :: bytes).dropWhile (· != newline) = bytes.dropWhile (· != newline) :=
    List.dropWhile_cons_of_pos (by simpa using h)
  have htake : (b :: bytes).takeWhile (· != newline) = b :: bytes.takeWhile (· != newline) :=
    List.takeWhile_cons_of_pos (by simpa using h)
  unfold splitLine
  rw [hdrop, htake]
  cases bytes.dropWhile (· != newline) <;> rfl

/-- The first line is split off before the others. -/
theorem lines_eq_cons (h : bytes ≠ []) :
    lines bytes = (splitLine bytes).1 :: lines (splitLine bytes).2 := by
  induction bytes with
  | nil => exact absurd rfl h
  | cons b bytes ih =>
    by_cases hb : b = newline
    · subst hb
      rw [splitLine_newline, lines, if_pos rfl]
    · rw [splitLine_of_ne hb, lines, if_neg hb]
      cases bytes with
      | nil => rfl
      | cons b' bytes => rw [ih (by simp)]

theorem length_splitLine_lt (h : bytes ≠ []) : (splitLine bytes).2.length < bytes.length := by
  induction bytes with
  | nil => exact absurd rfl h
  | cons b bytes ih =>
    by_cases hb : b = newline
    · subst hb
      rw [splitLine_newline]
      exact Nat.lt_succ_self _
    · rw [splitLine_of_ne hb]
      cases bytes with
      | nil => exact Nat.succ_pos _
      | cons b' bytes => exact Nat.lt_succ_of_lt (ih (by simp))

theorem flatten_lines (bytes : List UInt8) : (lines bytes).flatten = bytes := by
  induction bytes with
  | nil => rfl
  | cons b bytes ih =>
    rw [lines]
    split
    · rw [List.flatten_cons, ih, List.singleton_append]
    · split <;> rename_i hlines <;> rw [hlines] at ih <;> rw [← ih] <;> rfl

/-- No line goes on after its newline. -/
theorem not_mem_dropLast_of_mem_lines (hline : line ∈ lines bytes) :
    line ≠ [] ∧ newline ∉ line.dropLast := by
  induction bytes generalizing line with
  | nil => cases hline
  | cons b bytes ih =>
    rw [lines] at hline
    split at hline
    · rcases List.mem_cons.1 hline with rfl | hline
      · simp
      · exact ih hline
    · rename_i hb
      split at hline
      · obtain rfl := List.mem_singleton.1 hline
        simp
      · rename_i first rest hlines
        rcases List.mem_cons.1 hline with rfl | hline
        · obtain ⟨hne, hnot⟩ := ih (hlines ▸ List.mem_cons_self ..)
          rw [List.dropLast_cons_of_ne_nil hne]
          exact ⟨by simp, by simp [Ne.symm hb, hnot]⟩
        · exact ih (hlines ▸ List.mem_cons_of_mem _ hline)

/-- Only the last line can end with the input. -/
theorem getLast?_of_mem_dropLast_lines (hline : line ∈ (lines bytes).dropLast) :
    line.getLast? = some newline := by
  induction bytes generalizing line with
  | nil => cases hline
  | cons b bytes ih =>
    rw [lines] at hline
    split at hline
    · rename_i hb
      cases hlines : lines bytes with
      | nil => simp [hlines] at hline
      | cons first rest =>
        rw [List.dropLast_cons_of_ne_nil (by simp [hlines])] at hline
        rcases List.mem_cons.1 hline with rfl | hline
        · simp [hb]
        · exact ih hline
    · split at hline
      · simp at hline
      · rename_i first rest hlines
        rw [hlines] at ih
        cases rest with
        | nil => simp at hline
        | cons second rest =>
          rw [List.dropLast_cons_of_ne_nil (by simp)] at hline ih
          rcases List.mem_cons.1 hline with rfl | hline
          · rw [List.getLast?_cons, ih (List.mem_cons_self ..)]
            rfl
          · exact ih (List.mem_cons_of_mem _ hline)

/-! ## Numbers -/

theorem numberOf_zero (line : List UInt8) : numberOf (line :: ls) 0 = (isText line).toNat := by
  unfold numberOf
  cases h : isText line <;> simp [h]

theorem numberOf_succ (line : List UInt8) :
    numberOf (line :: ls) (i + 1) = (isText line).toNat + numberOf ls i := by
  unfold numberOf
  rw [List.take_succ_cons, List.countP_cons, Nat.add_comm]
  cases isText line <;> rfl

/-- A line has its own number if all lines up to it are texts. -/
theorem numberOf_eq_iff (h : j < ls.length) :
    numberOf ls j = j + 1 ↔ ∀ (i : Nat) (hi : i < ls.length), i ≤ j → isText ls[i] = true := by
  have hlength : (ls.take (j + 1)).length = j + 1 := List.length_take_of_le h
  unfold numberOf
  nth_rewrite 2 [← hlength]
  rw [List.countP_eq_length, List.forall_mem_iff_getElem]
  constructor
  · intro hall i hi hij
    have htext := hall i (by omega)
    rwa [List.getElem_take] at htext
  · intro hall i hi
    rw [List.getElem_take]
    exact hall i _ (by omega)

/-- Only the failure of a text that is no event has a number. -/
theorem reads_eq_iff :
    (kindOf line).reads label i = (kindOf line).reads label j ↔
      (kindOf line = .broken → i = j) := by
  cases kindOf line <;> simp [LineKind.reads]

theorem isText_iff : isText line = true ↔ kindOf line ≠ .unreadable := by
  unfold isText kindOf
  cases String.fromUTF8? ⟨line.toArray⟩ with
  | none => simp
  | some text =>
    simp only [Option.isSome_some, true_iff]
    split
    · simp
    · simp
    · split <;> simp

/-! ## Calls -/

theorem length_ahead_step_lt (h : c.ahead ≠ []) : c.step.2.ahead.length < c.ahead.length := by
  have hlt := length_splitLine_lt h
  unfold step
  split
  split <;> simp_all

theorem readLine_toList (label : String) (number : Nat) {text : String}
    (h : String.fromUTF8? ⟨line.toArray⟩ = some text) :
    (readLine label number text).toList = (kindOf line).reads label number := by
  unfold readLine kindOf
  rw [h]
  split
  · rename_i htrim
    simp only [htrim]
    rfl
  · rename_i htrim
    simp only [htrim]
    rfl
  · cases hparse : Event.parse? (Text.trim text.toList) <;> simp_all [LineKind.reads]

/-- One line gives what its kind says, and the rest is ahead. -/
theorem pending_step (h : c.ahead ≠ []) : c.pending = c.step.1.toList ++ c.step.2.pending := by
  unfold pending
  rw [lines_eq_cons h]
  unfold readsOf step
  rw [List.mapIdx_cons, List.flatten_cons]
  cases htext : String.fromUTF8? ⟨(splitLine c.ahead).1.toArray⟩ with
  | some text =>
    have hcounts : isText (splitLine c.ahead).1 = true := by rw [isText, htext]; rfl
    simp only [htext, readLine_toList _ _ htext, numberOf_zero, numberOf_succ, hcounts,
      Bool.toNat_true, Nat.add_assoc]
  | none =>
    have hcounts : isText (splitLine c.ahead).1 = false := by rw [isText, htext]; rfl
    simp only [htext, numberOf_succ, hcounts, Bool.toNat_false, Nat.zero_add]
    rw [kindOf, htext]
    rfl

/-- A listing with fuel for all lines gives what is ahead. -/
theorem reads_eq_pending (h : c.ahead.length ≤ n) : c.reads n = c.pending := by
  induction n generalizing c with
  | zero =>
    have hnil : c.ahead = [] := List.length_eq_zero_iff.1 (Nat.le_zero.1 h)
    rw [pending, hnil]
    rfl
  | succ n ih =>
    rw [reads]
    split
    · rename_i hempty
      rw [pending, List.isEmpty_iff.1 hempty]
      rfl
    · rename_i hne
      have hne : c.ahead ≠ [] := fun hnil => hne (List.isEmpty_iff.2 hnil)
      have hlt := length_ahead_step_lt hne
      show c.step.1.toList ++ reads n c.step.2 = c.pending
      rw [pending_step hne, ih (by omega)]

theorem ofLines_reads (label : String) (bytes : List UInt8) :
    (Source.ofLines label bytes).reads = readsOf label (numberOf (lines bytes)) (lines bytes) := by
  have hstart : (⟨label, bytes, 0⟩ : LineCursor).pending = readsOf label (numberOf (lines bytes))
      (lines bytes) := by
    unfold pending
    simp only [Nat.zero_add]
  rw [← hstart, ← reads_eq_pending (Nat.le_refl _)]
  rfl

/-! ## Physical numbers -/

theorem length_reads (label : String) (i j : Nat) (kind : LineKind) :
    (kind.reads label i).length = (kind.reads label j).length := by
  cases kind <;> rfl

theorem lengths_reads (label : String) (number number' : Nat → Nat) (ls : List (List UInt8)) :
    (ls.mapIdx fun i line => (kindOf line).reads label (number i)).map List.length =
      (ls.mapIdx fun i line => (kindOf line).reads label (number' i)).map List.length := by
  refine List.ext_getElem (by simp) fun i hi hi' => ?_
  simp only [List.getElem_map, List.getElem_mapIdx]
  exact length_reads ..

theorem length_readsOf (label : String) (number number' : Nat → Nat) (ls : List (List UInt8)) :
    (readsOf label number ls).length = (readsOf label number' ls).length := by
  rw [readsOf, readsOf, List.length_flatten, List.length_flatten,
    lengths_reads label number number']

/-- Only the numbers of broken lines can be read off what is given. -/
theorem readsOf_eq_iff {number number' : Nat → Nat} :
    readsOf label number ls = readsOf label number' ls ↔
    ∀ (i : Nat) (hi : i < ls.length), kindOf ls[i] = .broken → number i = number' i := by
  constructor
  · intro h i hi
    have hlists := List.eq_iff_flatten_eq.2 ⟨h, lengths_reads label number number' ls⟩
    have hget := congrArg (·[i]?) hlists
    simp only [List.getElem?_mapIdx, List.getElem?_eq_getElem hi, Option.map_some, Option.some_inj]
      at hget
    exact reads_eq_iff.1 hget
  · intro h
    refine congrArg List.flatten (List.mapIdx_eq_mapIdx_iff.2 fun i hi => ?_)
    exact reads_eq_iff.2 (h i hi)

/-- Broken lines have their own numbers if no line before one of them is unreadable. -/
theorem numberOf_broken_iff :
    (∀ (j : Nat) (hj : j < ls.length), kindOf ls[j] = .broken → numberOf ls j = j + 1) ↔
    ∀ (i j : Nat) (hi : i < ls.length) (hj : j < ls.length), i < j → kindOf ls[j] = .broken →
    kindOf ls[i] ≠ .unreadable := by
  constructor
  · intro h i j hi hj hij hbroken
    exact isText_iff.1 ((numberOf_eq_iff hj).1 (h j hj hbroken) i hi (Nat.le_of_lt hij))
  · intro h j hj hbroken
    refine (numberOf_eq_iff hj).2 fun i hi hij => isText_iff.2 ?_
    rcases Nat.eq_or_lt_of_le hij with rfl | hij
    · simp [hbroken]
    · exact h i j hi hj hij hbroken

end

end LineCursor

/-- What calls give is what is left, and then nothing. -/
theorem Source.take_eq (s : Source) (n : Nat) :
    s.take n = (s.reads ++ List.replicate n Read.nothing).take n := by
  induction n generalizing s with
  | zero => rfl
  | succ n ih =>
    obtain ⟨reads⟩ := s
    rw [Source.take, ih]
    cases reads with
    | nil => simp [Source.next, List.replicate_succ]
    | cons read reads =>
      have hcut : n ≤ (reads ++ List.replicate n Read.nothing).length := by simp
      rw [List.replicate_succ', ← List.append_assoc, List.cons_append, List.cons_append,
        List.take_succ_cons, List.take_append_of_le_length hcut]
      rfl

namespace LineCursor

/-- **A source of lines goes through its lines in order, and counts those that are texts.** The
lines of some bytes are the bytes, cut behind each newline. However often the source is asked, it
gives line by line an event, a failure or nothing at all, and nothing when there are no lines left.
The failure of a text that is no event has as its number how many texts there are up to that line.
This is the number of the line exactly when no line before is unreadable. -/
theorem lines_in_order (label : String) (bytes : List UInt8) :
    (lines bytes).flatten = bytes ∧
    (∀ line ∈ lines bytes, line ≠ [] ∧ newline ∉ line.dropLast) ∧
    (∀ line ∈ (lines bytes).dropLast, line.getLast? = some newline) ∧
    (∀ n, (Source.ofLines label bytes).take n =
      (readsOf label (numberOf (lines bytes)) (lines bytes) ++ List.replicate n Read.nothing).take
        n) ∧
    ((∀ n, (Source.ofLines label bytes).take n =
      (readsOf label (· + 1) (lines bytes) ++ List.replicate n Read.nothing).take n) ↔
      ∀ (i j : Nat) (hi : i < (lines bytes).length) (hj : j < (lines bytes).length),
        i < j → kindOf (lines bytes)[j] = .broken → kindOf (lines bytes)[i] ≠ .unreadable) := by
  have hgiven : ∀ n, (Source.ofLines label bytes).take n =
      (readsOf label (numberOf (lines bytes)) (lines bytes) ++ List.replicate n Read.nothing).take
        n := fun n => by
    rw [Source.take_eq, ofLines_reads]
  refine ⟨flatten_lines bytes, fun _ => not_mem_dropLast_of_mem_lines,
    fun _ => getLast?_of_mem_dropLast_lines, hgiven, ?_⟩
  rw [← numberOf_broken_iff, ← readsOf_eq_iff]
  constructor
  · intro h
    have hall := h (readsOf label (numberOf (lines bytes)) (lines bytes)).length
    rw [hgiven, List.take_left, length_readsOf label _ (· + 1), List.take_left] at hall
    exact hall
  · intro h n
    rw [hgiven, h]

/-- A line that is no text, and a line that is no event. -/
def unreadableThenBroken : List UInt8 := [0xff, newline, 98, 97, 100, newline]

/-- The second line is reported as the first one. -/
theorem second_line_reported_first :
    lines unreadableThenBroken = [[0xff, newline], [98, 97, 100, newline]] ∧
    kindOf [0xff, newline] = .unreadable ∧ kindOf [98, 97, 100, newline] = .broken ∧
    (Source.ofLines "trace" unreadableThenBroken).take 3 =
      [.failure (.unreadable "trace"), .failure (.invalidEvent "trace" 1), .nothing] ∧
    (Source.ofLines "trace" unreadableThenBroken).take 3 ≠
      (readsOf "trace" (· + 1) (lines unreadableThenBroken) ++ List.replicate 3 Read.nothing).take
        3 := by
  have htake : (Source.ofLines "trace" unreadableThenBroken).take 3 =
      [.failure (.unreadable "trace"), .failure (.invalidEvent "trace" 1), .nothing] := by rfl
  have hphysical : (readsOf "trace" (· + 1) (lines unreadableThenBroken) ++
    List.replicate 3 Read.nothing).take 3 =
      [.failure (.unreadable "trace"), .failure (.invalidEvent "trace" 2), .nothing] := by rfl
  refine ⟨rfl, rfl, rfl, htake, fun h => ?_⟩
  rw [htake, hphysical] at h
  simp at h

end LineCursor

end StateHistory
