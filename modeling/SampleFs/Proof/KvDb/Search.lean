import SampleFs.Metaserver.KvDb

/-!
# Searching a schema

The loop leaves at the first key that `memcmp` finds different. So with a key to look for it comes to
the end only along records whose keys are that key without its last byte, a NUL.
-/

namespace SampleFs.Proof.KvDb
open Lib Metaserver

abbrev Record := Metaserver.Bytes × Metaserver.Bytes

def cursorOf (records : List Record) : List CursorItem :=
  records.map fun record => { getKey := 0, key := record.1, val := record.2 }

/-- The search ends at the first record that begins with the key, with the callback's result for it,
and with -1 when there is none; the cursor is closed. -/
def FindsRecord (records : List Record) (dst : Metaserver.Bytes) : Prop :=
  ∀ (σ : Type) (cb : σ → Metaserver.Bytes → Metaserver.Bytes → Int × σ) (ctx : σ), ∃ out,
    kvSchmeaSearch cb (some dst) dst.length (cursorOf records) { ctx, calls := [] } = .ok out ∧
      out.closed = true ∧ match records.findIdx? fun record => record.1.take dst.length = dst with
        | some e => out.state.calls.length = e + 1 ∧
            ∃ record, records[e]? = some record ∧ out.state.calls.getLast? = some (record, out.ret)
        | none => out.ret = -1

def ScansAll (records : List Record) : Prop :=
  ∀ (σ : Type) (cb : σ → Metaserver.Bytes → Metaserver.Bytes → Int × σ) (ctx : σ) (size : Nat), ∃ out,
    kvSchmeaSearch cb none size (cursorOf records) { ctx, calls := [] } = .ok out ∧
      out.closed = true ∧ out.state.calls.map Prod.fst = records

def SearchMeets (records : List Record) : Option Metaserver.Bytes → Prop
  | some dst => FindsRecord records dst
  | none => ScansAll records

section Search
variable {σ : Type} {cb : σ → Metaserver.Bytes → Metaserver.Bytes → Int × σ}
  {dst : Option Metaserver.Bytes} {size : Nat}

variable (cb) in
def advance (s : SearchState σ) (records : List Record) : SearchState σ :=
  records.foldl (fun s record => (s.call cb record.1 record.2).2) s

theorem advance_calls (s : SearchState σ) (records : List Record) :
    (advance cb s records).calls.map Prod.fst = s.calls.map Prod.fst ++ records := by
  induction records generalizing s with
  | nil => simp [advance]
  | cons record rest ih =>
      rw [advance, List.foldl_cons]
      exact (ih _).trans (by simp [SearchState.call])

theorem advance_length (s : SearchState σ) (records : List Record) :
    (advance cb s records).calls.length = s.calls.length + records.length := by
  have lengths := congrArg List.length (@advance_calls σ cb s records)
  rwa [List.length_map, List.length_append, List.length_map] at lengths

theorem search_cons (record : Record) (rest : List Record) (s : SearchState σ) :
    kvSchmeaSearch cb dst size (cursorOf (record :: rest)) s =
      (keyDiffers record.1 dst size >>= fun differs =>
        if differs then .ok ⟨(s.call cb record.1 record.2).1, true, (s.call cb record.1 record.2).2⟩
        else kvSchmeaSearch cb dst size (cursorOf rest) (s.call cb record.1 record.2).2) := rfl

theorem search_passes {before rest : List Record}
    (passes : ∀ record ∈ before, keyDiffers record.1 dst size = .ok false) (s : SearchState σ) :
    kvSchmeaSearch cb dst size (cursorOf (before ++ rest)) s =
      kvSchmeaSearch cb dst size (cursorOf rest) (advance cb s before) := by
  induction before generalizing s with
  | nil => rfl
  | cons record before ih =>
      rw [List.cons_append, search_cons, passes record List.mem_cons_self, Exec.ok_bind]
      exact ih (fun other member => passes other (List.mem_cons_of_mem record member)) _

theorem search_calls {records : List Record} {s : SearchState σ} {out : SearchOutcome σ}
    (returns : kvSchmeaSearch cb dst size (cursorOf records) s = .ok out) :
    out.ret = -1 ∧ out.state = s ∧ records = [] ∨
      s.calls.length < out.state.calls.length := by
  induction records generalizing s with
  | nil =>
      cases returns
      exact .inl ⟨rfl, rfl, rfl⟩
  | cons record rest ih =>
      right
      have called : (s.call cb record.1 record.2).2.calls.length = s.calls.length + 1 := by
        simp [SearchState.call]
      rw [search_cons] at returns
      obtain ⟨differs, _, rest⟩ := Exec.bind_eq_ok.mp returns
      cases differs with
      | true =>
          cases rest
          exact Nat.lt_of_lt_of_eq (Nat.lt_succ_self _) called.symm
      | false =>
          rcases ih rest with ⟨_, same, _⟩ | more
          · rw [same, called]
            exact Nat.lt_succ_self _
          · omega

end Search

theorem keyDiffers_some {key dst : Metaserver.Bytes} (nonempty : dst ≠ []) :
    keyDiffers key (some dst) dst.length =
      if dst.length ≤ key.length + 1 then .ok (decide ((key ++ [0]).take dst.length ≠ dst))
      else .fail .outOfBounds := by
  have positive : 0 < dst.length := List.length_pos_iff.mpr nonempty
  rw [keyDiffers, if_pos positive, memcmpDiffers, List.take_length, List.length_append,
    List.length_singleton]
  by_cases inside : dst.length ≤ key.length + 1
  · rw [if_pos inside, Exec.check_pos _ ⟨inside, Nat.le_refl _⟩]
    rfl
  · rw [if_neg inside, Exec.check_neg _ fun both => inside both.1]
    rfl

-- Where the key to look for is the record's key with a NUL behind it, `memcmp` reads the terminator.
theorem terminated_passes {key dst : Metaserver.Bytes} (same : key ++ [0] = dst) :
    keyDiffers key (some dst) dst.length = .ok false ∧ key.take dst.length ≠ dst := by
  subst same
  constructor
  · rw [keyDiffers_some (by simp)]
    simp
  · intro equal
    have length := congrArg List.length equal
    simp at length

theorem search_scans (records : List Record) : ScansAll records := by
  intro σ cb ctx size
  refine ⟨⟨-1, true, advance cb { ctx, calls := [] } records⟩, ?_, rfl, ?_⟩
  · have passes := @search_passes σ cb none size records [] (fun _ _ => rfl) { ctx, calls := [] }
    rw [List.append_nil] at passes
    exact passes
  · rw [advance_calls]
    simp

theorem first_exception {records : List Record} {dst : Metaserver.Bytes}
    (exception : ¬ ∀ record ∈ records, record.1 ++ [0] = dst) :
    ∃ before record after, records = before ++ record :: after ∧
      (∀ earlier ∈ before, earlier.1 ++ [0] = dst) ∧ record.1 ++ [0] ≠ dst := by
  induction records with
  | nil => simp at exception
  | cons record rest ih =>
      by_cases same : record.1 ++ [0] = dst
      · have later : ¬ ∀ other ∈ rest, other.1 ++ [0] = dst := by
          intro all
          exact exception (List.forall_mem_cons.mpr ⟨same, all⟩)
        obtain ⟨before, other, after, split, passes, differs⟩ := ih later
        refine ⟨record :: before, other, after, by rw [split, List.cons_append], ?_, differs⟩
        exact List.forall_mem_cons.mpr ⟨same, passes⟩
      · exact ⟨[], record, rest, rfl, by simp, same⟩

theorem findIdx_first {before after : List Record} {record : Record} {dst : Metaserver.Bytes}
    (passes : ∀ earlier ∈ before, earlier.1 ++ [0] = dst) :
    (before ++ record :: after).findIdx? (fun record => record.1.take dst.length = dst) =
      if record.1.take dst.length = dst then some before.length
      else (after.findIdx? fun record => record.1.take dst.length = dst).map
        fun i => i + 1 + before.length := by
  have none : before.findIdx? (fun record => record.1.take dst.length = dst) = none := by
    rw [List.findIdx?_eq_none_iff]
    intro earlier member
    exact decide_eq_false (terminated_passes (passes earlier member)).2
  rw [List.findIdx?_append, none, Option.none_or, List.findIdx?_cons]
  by_cases hit : record.1.take dst.length = dst
  · simp [hit]
  · simp [hit, Function.comp_def]

def zeroCb : Unit → Metaserver.Bytes → Metaserver.Bytes → Int × Unit := fun _ _ _ => (0, ())

theorem not_findsRecord {before after : List Record} {record : Record} {dst : Metaserver.Bytes}
    (nonempty : dst ≠ []) (passes : ∀ earlier ∈ before, earlier.1 ++ [0] = dst)
    (exception : record.1 ++ [0] ≠ dst) : ¬ FindsRecord (before ++ record :: after) dst := by
  intro finds
  obtain ⟨out, returns, _, meets⟩ := finds Unit zeroCb ()
  rw [search_passes fun earlier member => (terminated_passes (passes earlier member)).1, search_cons,
    keyDiffers_some nonempty] at returns
  rw [findIdx_first passes] at meets
  have made := @advance_length Unit zeroCb { ctx := (), calls := [] } before
  generalize advance zeroCb { ctx := (), calls := [] } before = s at returns made
  have called : (s.call zeroCb record.1 record.2).2.calls.length = before.length + 1 := by
    simp [SearchState.call, made]
  by_cases inside : dst.length ≤ record.1.length + 1
  · rw [if_pos inside, Exec.ok_bind] at returns
    by_cases same : (record.1 ++ [0]).take dst.length = dst
    · -- the record that is looked for: the loop goes on
      have shorter : dst.length ≤ record.1.length := by
        by_contra longer
        have all : dst.length = (record.1 ++ [0]).length := by
          rw [List.length_append, List.length_singleton]
          omega
        rw [all, List.take_length] at same
        exact exception same
      have hit : record.1.take dst.length = dst := by
        rwa [List.take_append_of_le_length shorter] at same
      simp only [same, ne_eq, not_true_eq_false, decide_false, Bool.false_eq_true, if_false] at returns
      simp only [hit, if_true] at meets
      rcases search_calls returns with ⟨ret, state, _⟩ | more
      · obtain ⟨_, found, _, last⟩ := meets
        rw [state, ret] at last
        simp [SearchState.call, zeroCb] at last
      · omega
    · -- a record that is not looked for: the loop stops
      have miss : record.1.take dst.length ≠ dst := by
        intro hit
        have length := congrArg List.length hit
        rw [List.length_take] at length
        rw [List.take_append_of_le_length (by omega)] at same
        exact same hit
      simp only [same, ne_eq, not_false_eq_true, decide_true, if_true] at returns
      cases returns
      simp only [miss, if_false] at meets
      cases later : after.findIdx? fun record => record.1.take dst.length = dst with
      | none =>
          simp [later, SearchState.call, zeroCb] at meets
      | some e =>
          simp only [later, Option.map_some] at meets
          omega
  · rw [if_neg inside] at returns
    cases returns

theorem findsRecord_terminated {records : List Record} {dst : Metaserver.Bytes}
    (all : ∀ record ∈ records, record.1 ++ [0] = dst) : FindsRecord records dst := by
  intro σ cb ctx
  refine ⟨⟨-1, true, advance cb { ctx, calls := [] } records⟩, ?_, rfl, ?_⟩
  · have passes := @search_passes σ cb (some dst) dst.length records []
      (fun record member => (terminated_passes (all record member)).1) { ctx, calls := [] }
    rw [List.append_nil] at passes
    exact passes
  · have none : records.findIdx? (fun record => record.1.take dst.length = dst) = none := by
      rw [List.findIdx?_eq_none_iff]
      intro record member
      exact decide_eq_false (terminated_passes (all record member)).2
    rw [none]

theorem kv_schmea_search_finds (records : List Record) {dst : Option Metaserver.Bytes}
    (nonempty : dst ≠ some []) :
    SearchMeets records dst ↔ ∀ key, dst = some key → ∀ record ∈ records, record.1 ++ [0] = key := by
  cases dst with
  | none => exact iff_of_true (search_scans records) (by simp)
  | some dst =>
      simp only [SearchMeets, Option.some.injEq, forall_eq']
      constructor
      · intro finds
        by_contra exception
        obtain ⟨before, record, after, rfl, passes, differs⟩ := first_exception exception
        exact not_findsRecord (fun empty => nonempty (by rw [empty])) passes differs finds
      · exact findsRecord_terminated

theorem kv_schmea_search_scan : SearchMeets [([97], [1]), ([98], [2])] none :=
  (kv_schmea_search_finds _ (by simp)).mpr (by simp)

theorem kv_schmea_search_skips : ¬ SearchMeets [([97], [1])] (some [97]) :=
  @not_findsRecord [] [] ([97], [1]) [97] (by decide) (by simp) (by decide)

end SampleFs.Proof.KvDb
