import StateHistory.Proofs.Analysis.Names
import StateHistory.Proofs.CommandLine.Written

/-!
# Paths that reports print

What reports print of an attribute can be used to ask for it, as far as the names on its path allow.
Slashes in names are not escaped, and empty names are lost, so an attribute whose path has such a
name does not lead back to itself. Only texts of events can bring in such names: numbers, the
heights of stacks and the names that a provider has of its own are always read as they are written
(`plain_of_names`). All other attributes are found under what is printed of them, and no two of them
are printed the same (`printed_paths_lead_back`).
-/

namespace StateHistory.CommandLine

open StateHistory.Tree (joinPath)

/-! ## Numbers -/

section
variable {n : Nat} {s t : String} {cs : List Char}

theorem slash_not_mem_append (hs : '/' ∉ s.toList) (ht : '/' ∉ t.toList) :
    '/' ∉ (s ++ t).toList := by
  rw [String.toList_append, List.mem_append]
  exact not_or.2 ⟨hs, ht⟩

theorem plain_append_left (hs : Plain s) (ht : '/' ∉ t.toList) : Plain (s ++ t) := by
  refine ⟨fun h => hs.1 ?_, slash_not_mem_append hs.2 ht⟩
  exact (String.append_eq_empty_iff.1 h).1

theorem plain_append_right (hs : '/' ∉ s.toList) (ht : Plain t) : Plain (s ++ t) := by
  refine ⟨fun h => ht.1 ?_, slash_not_mem_append hs ht.2⟩
  exact (String.append_eq_empty_iff.1 h).2

theorem plain_toString_nat (n : Nat) : Plain (toString n) := by
  rw [Nat.toString_eq_repr]
  refine ⟨Nat.repr_ne_empty, fun h => ?_⟩
  rw [Nat.repr_eq_ofList_toDigits, String.toList_ofList] at h
  exact absurd (Nat.isDigit_of_mem_toDigits (by decide) (by decide) h) (by decide)

theorem plain_toString_int (n : Int) : Plain (toString n) := by
  cases n with
  | ofNat n => exact plain_toString_nat n
  | negSucc n => exact plain_append_right (by decide) (plain_toString_nat (n + 1))

theorem slash_not_mem_zeros (n : Nat) : '/' ∉ (Decimal.zeros n).toList := by
  rw [Decimal.zeros, String.toList_ofList]
  intro h
  exact absurd (List.eq_of_mem_replicate h) (by decide)

theorem slash_not_mem_ofList (h : cs ⊆ (toString n).toList) : '/' ∉ (String.ofList cs).toList := by
  rw [String.toList_ofList]
  exact fun hslash => (plain_toString_nat n).2 (h hslash)

open Decimal in
theorem plain_positionalText (keepsFraction : Bool) (number : Scientific) :
    Plain (positionalText keepsFraction number) := by
  have hdigits := plain_toString_nat number.digits
  unfold positionalText
  simp only
  split
  · refine plain_append_left (plain_append_left hdigits (slash_not_mem_zeros _)) ?_
    cases keepsFraction <;> decide
  · split
    · refine plain_append_left (plain_append_right ?_ (by decide)) ?_
      · exact slash_not_mem_ofList (List.take_subset ..)
      · exact slash_not_mem_ofList (List.drop_subset ..)
    · exact plain_append_right (slash_not_mem_append (by decide) (slash_not_mem_zeros _)) hdigits

open Decimal in
theorem plain_exponentText (number : Scientific) : Plain (exponentText number) := by
  unfold exponentText
  simp only
  have hlead : '/' ∉ (String.ofList ((toString number.digits).toList.take 1)).toList :=
    slash_not_mem_ofList (List.take_subset ..)
  have hmantissa : '/' ∉ (String.ofList ((toString number.digits).toList.take 1) ++
      if ((toString number.digits).toList.drop 1).isEmpty then ""
      else "." ++ String.ofList ((toString number.digits).toList.drop 1)).toList := by
    refine slash_not_mem_append hlead ?_
    split
    · decide
    · exact slash_not_mem_append (by decide) (slash_not_mem_ofList (List.drop_subset ..))
  refine plain_append_right (slash_not_mem_append (slash_not_mem_append hmantissa (by decide)) ?_)
    (plain_toString_nat _)
  split <;> decide

/-- A double is read as it is written. -/
theorem plain_text_json (bits : UInt64) : Plain (Decimal.json.text bits) := by
  have hsign : ∀ negative : Bool, '/' ∉ (if negative then "-" else "").toList := by decide
  unfold Decimal.Layout.text
  simp only
  have hnull : Plain "null" := by decide
  split
  · exact hnull
  · exact hnull
  · exact plain_append_right (hsign _) (by decide)
  · refine plain_append_right (hsign _) ?_
    split
    · exact plain_positionalText _ _
    · exact plain_exponentText _

end

/-! ## Names of attributes -/

/-- If the event tells the field as a text, that can be read as it is written. -/
def PlainField (e : Event) (field : String) : Prop :=
  ∀ name, e.fieldString field = some name → Plain name

/-- The texts that a provider takes names from can be read as they are written. -/
def PlainFor (e : Event) : Stock → Prop
  | .callStack => PlainField e "pid" ∧ PlainField e "tid"
  | .counter => PlainField e "name"

section
variable {e : Event} {field name : String} {k : Stock} {events : List Event} {way : List String}

/-- Only texts can be read otherwise than they are written. -/
theorem plain_of_fieldSegment (h : PlainField e field) (hname : e.fieldSegment field = some name) :
    Plain name := by
  unfold Event.fieldSegment at hname
  split at hname
  · rename_i text hfield
    refine h name ?_
    unfold Event.fieldString
    rw [hfield, ← hname]
  · exact Option.some.inj hname ▸ plain_toString_int _
  · exact Option.some.inj hname ▸ plain_text_json _
  · cases hname

theorem plain_segmentOr (h : PlainField e field) : Plain (CallStack.segmentOr "0" e field) := by
  unfold CallStack.segmentOr
  cases hname : e.fieldSegment field with
  | none => decide
  | some name => exact plain_of_fieldSegment h hname

theorem plain_of_uses {whole : List String} (h : PlainFor e k) (huses : k.Uses e whole) :
    ∀ name ∈ whole, Plain name := by
  cases huses with
  | slot height =>
    obtain ⟨hpid, htid⟩ := h
    simp only [CallStack.path, Store.slotName, List.cons_append, List.nil_append,
      List.forall_mem_cons]
    exact ⟨by decide, plain_segmentOr hpid, plain_segmentOr htid, by decide,
      plain_toString_int _, by simp⟩
  | counter hname =>
    simp only [Counter.path, List.forall_mem_cons]
    exact ⟨by decide, plain_of_fieldSegment h hname, by simp⟩

/-- If the events tell plain names, all names on the paths of attributes are plain. -/
theorem plain_of_names (h : ∀ e ∈ events, PlainFor e k) (hnames : k.Names events way) :
    ∀ name ∈ way, Plain name := by
  obtain ⟨e, he, whole, huses, hshort⟩ := hnames
  exact fun name hname => plain_of_uses (h e he) huses name (hshort.subset hname)

/-- What the state system of a run has been through lets reports show it. -/
theorem shown_of_fromEvents {s : StateSystem} (h : FromEvents k events s) : Shown s :=
  ⟨h.live, h.store.named, h.store.lawful⟩

end

/-- **Attributes with plain names on their paths are found under what is printed of them.** Take the
state system that a run of a stock provider on some events has, whether it completes, fails or is
called off, if it has not loaded a saved history. Each attribute but the root has a path that an
event names. It is printed with slashes between the names, and what is printed leads back to it
exactly when the names on its path are plain: not empty, and without a slash. Attributes with plain
names are printed differently, and all are of this kind if the texts that the provider takes names
from are plain. The report on the tree shows each attribute but the root once, and those on a time
show no other paths; what is shown of an attribute with plain names can be used to ask for this
attribute at a time or between two times, and the answer shows it under the same path. -/
theorem printed_paths_lead_back (k : Stock) (events : List Event) (a : Analysis) (folder : Folder)
    (hprovider : a.provider = k.provider) (hsource : ∀ e, .event e ∈ a.source.reads → e ∈ events)
    (hphase : a.phase = .starting) (hnone : a.system = none) (hfresh : a.loadHistory folder = none)
    {s : StateSystem} (hs : (Session.runAlone a folder).1.system = some s) :
    (∀ q, s.store.tree.contains q = true → q ≠ .root → ∃ way, s.store.tree.path q = .ok way ∧
      k.Names events way ∧
      s.query (·.tree.pathText q) = .ok (joinPath way) ∧ pathOf s q = joinPath way ∧
      (resolve s (joinPath way) = .ok q ↔ ∀ name ∈ way, Plain name)) ∧
    (∀ q q' way way', s.store.tree.path q = .ok way → s.store.tree.path q' = .ok way' →
      (∀ name ∈ way, Plain name) → (∀ name ∈ way', Plain name) →
      pathOf s q = pathOf s q' → q = q') ∧
    ((∀ e ∈ events, PlainFor e k) → ∀ q way, s.store.tree.path q = .ok way →
      ∀ name ∈ way, Plain name) ∧
    (∀ format filter p, passes filter = .ok p →
      (∃ qs : List Quark, qs.Nodup ∧ (∀ q, q ∈ qs ↔ s.store.tree.contains q = true ∧ q ≠ .root) ∧
        report s format (.tree filter) = .ok (writtenPaths format ((qs.map (pathOf s)).filter p))) ∧
      ∀ t ivs, s.query (Store.full t) = .ok ivs → report s format (.fullState t filter) =
        .ok (writtenRows format (((ivs.filter (·.quark ≠ .root)).map (rowOf s)).filter fun r =>
          p r.path))) ∧
    ∀ q way, s.store.tree.path q = .ok way → (∀ name ∈ way, Plain name) → ∀ format,
      (∀ t, report s format (.single t (pathOf s q)) = match s.query (Store.single t q) with
        | .ok iv => .ok (writtenRows format [⟨pathOf s q, iv⟩])
        | .error e => .error (.system e)) ∧
      ∀ start stop, report s format (.range (pathOf s q) start stop) =
          match s.history q start stop with
        | .ok ivs => .ok (writtenRows format (ivs.map fun iv => ⟨pathOf s q, iv⟩))
        | .error e => .error (.system e) := by
  have hdraws : a.Draws k events folder :=
    ⟨hprovider, hsource, .inr hfresh, fun _ _ _ h => (nomatch hphase.symm.trans h), by simp [hnone]⟩
  have hevents : FromEvents k events s := hdraws.runAlone.system s hs
  have hshown := shown_of_fromEvents hevents
  refine ⟨fun q hq hne => ?_, fun q q' way way' hway hway' => hshown.eq_of_pathOf_eq hway hway',
    fun hplain q way hway => ?_, fun format filter p hfilter =>
      ⟨?_, fun t ivs => ?_⟩, fun q way hway hplain format => ?_⟩
  · obtain ⟨way, hway⟩ := hshown.exists_way hq
    have hnames : way ≠ [] := by
      rintro rfl
      exact hne (Option.some.inj (hshown.named.path_eq_ok_iff.1 hway)).symm
    refine ⟨way, hway, hevents.store.spelled q way hway hnames, ?_, pathOf_eq hway,
      hshown.resolve_joinPath_iff hway⟩
    rw [StateSystem.query_of_live hshown.live, pathText_eq hway]
  · cases way with
    | nil => simp
    | cons name rest => exact plain_of_names hplain (hevents.store.spelled q _ hway (by simp))
  · obtain ⟨qs, hqs, hnodup, hmem⟩ := hshown.exists_below
    exact ⟨qs, hnodup, hmem, hshown.report_tree hfilter hqs (fun q hq => ((hmem q).1 hq).1) format⟩
  · exact fun hivs => hshown.report_fullState hfilter hivs format
  · have hfound : resolve s (pathOf s q) = .ok q := by
      rw [pathOf_eq hway]
      exact (hshown.resolve_joinPath_iff hway).2 hplain
    exact ⟨hshown.report_single hfound format, hshown.report_range hfound format⟩

/-- A thread of a process whose names are numbers, which enters a function. -/
def entered : Analysis :=
  ⟨"stacks", CallStack.provider,
    .ofEvents [⟨1, "entry", [("function", .string "f"), ("pid", .int 7), ("tid", .int (-8))]⟩],
    [], {}, [], .running, false, none, .starting⟩

theorem printed_paths_lead_back_entered : ∃ s, (Session.runAlone entered {}).1.system = some s ∧
    s.store.tree.contains ⟨5⟩ = true ∧ pathOf s ⟨5⟩ = "Processes/7/-8/CallStack/1" ∧
    resolve s "Processes/7/-8/CallStack/1" = .ok ⟨5⟩ := by
  have hseen : (Session.runAlone entered {}).1.system.map
      (fun s => (s.store.tree.contains ⟨5⟩, pathOf s ⟨5⟩)) = some (true,
        "Processes/7/-8/CallStack/1") := by decide +kernel
  obtain ⟨s, hs, heq⟩ := Option.map_eq_some_iff.1 hseen
  obtain ⟨hin, hprinted⟩ := Prod.mk.inj heq
  obtain ⟨hpaths, -, hplain, -⟩ := printed_paths_lead_back .callStack
    [⟨1, "entry", [("function", .string "f"), ("pid", .int 7), ("tid", .int (-8))]⟩] entered {} rfl
    (by simp [entered, Source.ofEvents]) rfl rfl rfl hs
  obtain ⟨way, hway, -, -, hwritten, hfound⟩ := hpaths ⟨5⟩ hin (by decide)
  have hnames : ∀ e ∈
    ([⟨1, "entry", [("function", .string "f"), ("pid", .int 7), ("tid", .int (-8))]⟩] : List Event),
      PlainFor e .callStack := by
    intro e he
    obtain rfl := List.mem_singleton.1 he
    exact ⟨fun name hname => (nomatch hname), fun name hname => (nomatch hname)⟩
  rw [← hwritten, hprinted] at hfound
  exact ⟨s, hs, hin, hprinted, hfound.2 (hplain hnames ⟨5⟩ way hway)⟩

/-- A counter with a slash in its name. -/
def slashed : Analysis :=
  ⟨"counter", Counter.provider,
    .ofEvents [⟨1, "counter", [("name", .string "a/b"), ("value", .int 5)]⟩],
    [], {}, [], .running, false, none, .starting⟩

/-- Threads of different processes, with slashes in other places. -/
def clashing : Analysis :=
  ⟨"callstack", CallStack.provider,
    .ofEvents [⟨1, "entry", [("pid", .string "a/b"), ("tid", .string "c")]⟩,
    ⟨1, "entry", [("pid", .string "a"), ("tid", .string "b/c")]⟩], [], {}, [], .running, false,
      none, .starting⟩

/-- The counter is not found under what the tree shows of it, and the stacks are shown as one. -/
theorem slashes_not_escaped :
    (∃ s, (Session.runAlone slashed {}).1.system = some s ∧ s.store.tree.contains ⟨2⟩ = true ∧
      pathOf s ⟨2⟩ = "Counters/a/b" ∧ report s .text (.tree none) = .ok "Counters\nCounters/a/b\n" ∧
      resolve s "Counters/a/b" = .error (.system (.attributeNotFound "Counters/a/b"))) ∧
    ∃ s, (Session.runAlone clashing {}).1.system = some s ∧ s.store.tree.contains ⟨4⟩ = true ∧
      s.store.tree.contains ⟨8⟩ = true ∧ pathOf s ⟨4⟩ = pathOf s ⟨8⟩ := by
  have hslashed : ((Session.runAlone slashed {}).1.system.any fun s =>
    decide (s.store.tree.contains ⟨2⟩ = true ∧
      pathOf s ⟨2⟩ = "Counters/a/b" ∧ report s .text (.tree none) = .ok "Counters\nCounters/a/b\n" ∧
      resolve s "Counters/a/b" = .error (.system (.attributeNotFound "Counters/a/b")))) = true := by
        decide +kernel
  have hclashing : ((Session.runAlone clashing {}).1.system.any fun s =>
    decide (s.store.tree.contains ⟨4⟩ = true ∧
      s.store.tree.contains ⟨8⟩ = true ∧ pathOf s ⟨4⟩ = pathOf s ⟨8⟩)) = true := by decide +kernel
  obtain ⟨s, hs, hlost⟩ := (Option.any_eq_true _ _).1 hslashed
  obtain ⟨s', hs', hsame⟩ := (Option.any_eq_true _ _).1 hclashing
  exact ⟨⟨s, hs, of_decide_eq_true hlost⟩, s', hs', of_decide_eq_true hsame⟩

end StateHistory.CommandLine
