import CssVendor.Expand.Journal
import CssVendor.Proofs.Lifetime
import CssVendor.Proofs.NameReading

/-!
# The log of a run

A run reports what it does while it does it, and nothing else. So its records
can be told from the tree before and the tree after: block by block, parents
first, the marks that stand alone, the forms that the block has gained in the
order in which they stand in it now, and a line that sums them up. Nothing is
reported of roots, nor of the first block that has a property without a name,
where the run stops, nor of anything behind it.

Two things carry this. Within a block, the records are made by loops inside
loops, and unrolling these gives one list behind the other (`expandByStep_eq`).
Over the tree, every step of a pass makes the records of the block it meets
behind those that are there (`Pass.records`).
-/

namespace CssVendor

/-! ## One block -/

namespace Journal

theorem foldl_append (label : String) (ds : List Declaration) (j : Journal) :
    ds.foldl (append label) j =
      ⟨j.declarations ++ ds, j.added + ds.length,
        j.records ++ ds.map fun d =>
          .trace (label ++ ": adding " ++ d.text)⟩ := by
  induction ds generalizing j with
  | nil => simp
  | cons d ds ih =>
      rw [List.foldl_cons, ih]
      simp only [append, report, List.append_assoc, List.singleton_append,
        List.length_cons, List.map_cons, Nat.add_assoc, Nat.add_comm 1]

theorem foldl_complete (label : String) (groups : List PropertyGroup)
    (j : Journal) :
    groups.foldl (complete label) j =
      (groups.flatMap PropertyGroup.missing).foldl (append label) j := by
  rw [List.foldl_flatMap]
  rfl

end Journal

theorem danglingRecords_append (ds es : List Declaration) :
    danglingRecords (ds ++ es) = danglingRecords ds ++ danglingRecords es :=
  List.filterMap_append

namespace Gathering

theorem note_eq (s : Gathering) (records : List Record) (d : Declaration) :
    note (s, records) d = (s.read d, records ++ danglingRecords [d]) := by
  rw [note, read]
  split
  · next hempty =>
      have hplain : NameForm.of "" = .plain := by decide
      rw [danglingRecords, List.filterMap_cons, eq_of_beq hempty, hplain]
      simp
  · rw [readVendor, danglingRecords, List.filterMap_cons]
    cases NameForm.of d.name <;> simp

/-- Reading declarations with an eye on marks that stand alone finds the same
groups. -/
theorem foldl_note (ds : List Declaration) (s : Gathering)
    (records : List Record) :
    ds.foldl note (s, records) =
      (ds.foldl read s, records ++ danglingRecords ds) := by
  induction ds generalizing s records with
  | nil => simp [danglingRecords]
  | cons d ds ih =>
      rw [List.foldl_cons, note_eq, ih, List.foldl_cons, List.append_assoc,
        ← danglingRecords_append, List.singleton_append]

end Gathering

namespace Block

/-- Expanding a block step by step, with a record for each step, is expanding
it. -/
theorem expandByStep_eq (b : Block) : b.expandByStep = b.expand := by
  rw [expandByStep, expand]
  split
  · rfl
  · cases b.unnamed? with
    | some index => rfl
    | none =>
        have hgroups : (b.declarations.foldl Gathering.read ⟨[], []⟩).settle =
            gather b.declarations := rfl
        have hmissing : (gather b.declarations).flatMap PropertyGroup.missing =
            missingForms b.declarations := rfl
        simp only [Gathering.foldl_note, Journal.foldl_complete,
          Journal.foldl_append, hgroups, hmissing, List.nil_append,
          Nat.zero_add, Journal.sumUp, expansionRecords]
        cases missingForms b.declarations with
        | nil => simp
        | cons d ds => simp [Journal.report]

end Block

/-! ## What is reported of a block -/

/-- The warning that a declaration gives rise to: its name is a vendor's marker
alone, or with the hyphen behind it. -/
def Declaration.warning? (d : Declaration) : Option Record :=
  (Vendor.all.find? fun v => d.name == v.marker || d.name == v.marker ++ "-").map
    fun v => .warn ("ignoring \x60" ++ d.name ++ "\x60: no property after " ++
      v.marker)

/-- What is reported of a block that gains the declarations `appended`. -/
def Block.report (b : Block) (appended : List Declaration) : List Record :=
  b.declarations.filterMap Declaration.warning? ++
  (appended.map fun d => .trace (b.label ++ ": adding " ++ d.text)) ++
  if appended = [] then [] else
    [.debug (b.label ++ ": appended " ++ Nat.repr appended.length ++
      " declarations for " ++ Nat.repr (gather b.declarations).length ++
      " properties")]

theorem Declaration.warning?_eq (d : Declaration) :
    d.warning? = match NameForm.of d.name with
      | .dangling v => some (.warn ("ignoring \x60" ++ d.name ++
          "\x60: no property after " ++ v.marker))
      | _ => none := by
  let alone (v : Vendor) : Bool :=
    d.name == v.marker || d.name == v.marker ++ "-"
  have halone : ∀ v, alone v = true ↔ NameForm.of d.name = .dangling v := by
    intro v
    rw [NameForm.of_eq_dangling_iff, Bool.or_eq_true, beq_iff_eq, beq_iff_eq]
  have hwarning : d.warning? = (Vendor.all.find? alone).map fun v =>
      .warn ("ignoring \x60" ++ d.name ++ "\x60: no property after " ++
        v.marker) := rfl
  rw [hwarning]
  cases hfind : Vendor.all.find? alone with
  | none =>
      cases hform : NameForm.of d.name with
      | dangling v =>
          exact absurd ((halone v).2 hform)
            (List.find?_eq_none.1 hfind v v.mem_all)
      | vendored _ _ | plain => rfl
  | some v =>
      rw [(halone v).1 (List.find?_some hfind)]
      rfl

theorem Block.expansionRecords_eq (b : Block) (appended : List Declaration) :
    b.expansionRecords appended = b.report appended := by
  have hwarnings : danglingRecords b.declarations =
      b.declarations.filterMap Declaration.warning? :=
    List.filterMap_congr fun d _ => d.warning?_eq.symm
  rw [expansionRecords, report, hwarnings]
  simp only [List.isEmpty_iff]

/-! ## A pass over the blocks -/

/-- The records of a pass over blocks that were `bs` before and are `bs'` now,
up to the first of them that could not be expanded. -/
def transcript : List Block → List Block → List Record
  | b :: bs, b' :: bs' =>
      if b.Unnamed then []
      else if b.isRoot then transcript bs bs'
      else b.report (b'.declarations.drop b.declarations.length) ++
        transcript bs bs'
  | _, _ => []

/-- The records of single changes. -/
def traces (records : List Record) : List Record :=
  records.filter fun r => r.level == .trace

theorem traces_append (rs rs' : List Record) :
    traces (rs ++ rs') = traces rs ++ traces rs' :=
  List.filter_append ..

theorem traces_eq_nil {rs : List Record} (h : ∀ r ∈ rs, r.level ≠ .trace) :
    traces rs = [] :=
  List.filter_eq_nil_iff.2 fun r hr => by simpa using h r hr

namespace Block

/-- One trace is left of each declaration that a block gains. -/
theorem length_traces_report (b : Block) (appended : List Declaration) :
    (traces (b.report appended)).length = appended.length := by
  have hwarnings :
      traces (b.declarations.filterMap Declaration.warning?) = [] := by
    refine traces_eq_nil fun r hr => ?_
    obtain ⟨d, -, hd⟩ := List.mem_filterMap.1 hr
    obtain ⟨v, -, rfl⟩ := Option.map_eq_some_iff.1 hd
    simp [Record.warn]
  have hsum : ∀ text : String,
      traces (if appended = [] then [] else [.debug text]) = [] := by
    intro text
    refine traces_eq_nil fun r hr => ?_
    split at hr
    · cases hr
    · rw [List.mem_singleton.1 hr]
      simp [Record.debug]
  have hchanges : ∀ label : String, traces (appended.map fun d =>
      .trace (label ++ ": adding " ++ d.text)) = appended.map fun d =>
      .trace (label ++ ": adding " ++ d.text) := by
    intro label
    refine List.filter_eq_self.2 fun r hr => ?_
    obtain ⟨d, -, rfl⟩ := List.mem_map.1 hr
    rfl
  rw [report, traces_append, traces_append, hwarnings, hchanges, hsum,
    List.nil_append, List.append_nil, List.length_map]

/-- A block that can be expanded makes the records of what it gains, or none if
it is a root, and as many traces as declarations are counted. -/
theorem records_expand {b : Block} {e : Expansion} (h : b.expand = .ok e) :
    e.records = (if b.isRoot then [] else
      b.report (e.block.declarations.drop b.declarations.length)) ∧
    (traces e.records).length = e.added := by
  rw [expand] at h
  split at h
  · next hroot =>
      cases h
      rw [if_pos hroot]
      exact ⟨rfl, rfl⟩
  · next hroot =>
      split at h
      · cases h
      · cases h
        simp only [List.drop_left, if_neg hroot, expansionRecords_eq,
          length_traces_report, true_and]

end Block

namespace Pass

/-- Behind the records that it begins with, a pass makes those of the blocks
that it gets past. -/
theorem records {t t' : Tally} {bs bs' : List Block} {r : Except Fault Unit}
    (h : Pass t bs t' bs' r) :
    t'.records = t.records ++ transcript bs bs' := by
  induction h with
  | done => exact (List.append_nil _).symm
  | expand he hagrees _ ih =>
      rw [ih, transcript, if_neg (Block.not_unnamed_of_expand he),
        (Block.records_expand he).1, hagrees.declarations]
      split <;> simp
  | stop hfault =>
      rw [transcript, if_pos (Block.unnamed_of_expand hfault).1,
        List.append_nil]

/-- The count moves with the traces, whether or not the pass comes to its
end. -/
theorem added_traces {t t' : Tally} {bs bs' : List Block}
    {r : Except Fault Unit} (h : Pass t bs t' bs' r) :
    t'.added + (traces t.records).length =
      t.added + (traces t'.records).length := by
  induction h with
  | done => rfl
  | expand he _ _ ih =>
      have hstep := (Block.records_expand he).2
      simp only [traces_append, List.length_append] at ih
      omega
  | stop _ => rfl

end Pass

namespace Filler

theorem records_run_of_error {f : Filler} {t : Block} {fault : Fault}
    (h : (f.run t).result = .error fault) :
    (f.run t).records = (Tally.visitor.walk f.start t).state.records := by
  have hresult : (Tally.visitor.walk f.start t).result = .error fault := h
  simp only [run, hresult, List.append_nil]

/-- The records of a run are those that the tree before it and the tree after it
tell of, and then, if and only if it came to its end, one with the number of
declarations appended and the number of blocks. That number is how far the
filler's count has moved, and one trace is left of each; so it is in a run that
was stopped. Within a block the records are made in the order of the steps. -/
theorem run_transcript (f : Filler) (t : Block) :
    (∀ b : Block, b.expandByStep = b.expand) ∧
    List.Forall₂ Block.Extends t.preorder (f.run t).tree.preorder ∧
    ∃ n, (f.run t).plugin.added = f.added + n ∧
      (traces (f.run t).records).length = n ∧
      ((f.run t).result = .ok () →
        (f.run t).records =
          transcript t.preorder (f.run t).tree.preorder ++
            [.debug ("prefixly: " ++ Nat.repr n ++
              " declarations added across " ++
              Nat.repr (f.run t).tree.preorder.length ++ " blocks")]) ∧
      ∀ fault, (f.run t).result = .error fault →
        (f.run t).records =
          transcript t.preorder (f.run t).tree.preorder := by
  have hpass := f.pass_run t
  let walked := (Tally.visitor.walk f.start t).state
  have hwalked : walked.records =
      transcript t.preorder (f.run t).tree.preorder := hpass.records
  have hadded : (f.run t).plugin.added =
      f.added + (traces walked.records).length := hpass.added_traces
  refine ⟨Block.expandByStep_eq, hpass.extends,
    (traces walked.records).length, hadded, ?_, fun hok => ?_,
    fun fault herror => ?_⟩
  · cases hresult : (f.run t).result with
    | ok u =>
        rw [records_run_of_ok hresult, traces_append, List.length_append]
        rfl
    | error fault => rw [records_run_of_error hresult]
  · rw [records_run_of_ok hok, hadded, Nat.add_sub_cancel_left, ← hwalked]
  · rw [records_run_of_error herror, ← hwalked]

/-- A rule with a mark that stands alone, one form to fill the others in from,
and a rule in it whose property has no name. The run stops there, and as the
rule behind is not reached nothing is told of it. -/
theorem run_transcript_stopped :
    let t : Block := ⟨.root, [⟨"-ms-z", "0", false⟩],
      [⟨.style ["a"], [⟨"-o-", "1", false⟩, ⟨"-moz-x", "2", true⟩],
          [⟨.style ["b"], [⟨"", "3", false⟩], []⟩]⟩,
        ⟨.style ["c"], [⟨"-ms-y", "4", false⟩], []⟩]⟩
    ∀ f : Filler,
      (f.run t).result = .error (.unnamedProperty "b" 0) ∧
      (f.run t).records =
        [.warn "ignoring \x60-o-\x60: no property after -o",
          .trace "a: adding -webkit-x: 2 !important",
          .trace "a: adding -o-x: 2 !important",
          .trace "a: adding -ms-x: 2 !important",
          .trace "a: adding x: 2 !important",
          .debug "a: appended 4 declarations for 1 properties"] ∧
      (f.run t).plugin.added = f.added + 4 := by
  intro t f
  obtain ⟨-, -, n, hadded, htraces, -, hstopped⟩ := run_transcript f t
  obtain ⟨hresult, htree⟩ := f.run_eq (new .default) t
  have herror : (f.run t).result = .error (.unnamedProperty "b" 0) :=
    hresult.trans (by decide +kernel)
  have hrecords := hstopped _ herror
  rw [htree] at hrecords
  rw [hrecords] at htraces
  refine ⟨herror, hrecords.trans (by decide +kernel), hadded.trans ?_⟩
  rw [← htraces]
  exact congrArg (f.added + ·) (by decide +kernel)

end Filler

end CssVendor
