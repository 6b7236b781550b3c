import SampleFs.Base.Hashmap
import SampleFs.Lib.Trace

namespace SampleFs.Proof.Hashmap
open Lib Base

inductive MapCall where
  | put (key : Option Bytes) (keySz : Nat) (value : Option Bytes) (valueSz : Nat)
  | del (key : Option Bytes) (keySz : Nat)

-- A size argument does not exceed the memory behind its pointer.
def MapCall.WellFormed : MapCall → Prop
  | .put key keySz value valueSz =>
      (∀ buf, key = some buf → keySz ≤ buf.length) ∧ ∀ buf, value = some buf → valueSz ≤ buf.length
  | .del key keySz => ∀ buf, key = some buf → keySz ≤ buf.length

def mapCall (d : CHashmap) : MapCall → Exec Fault (Int × CHashmap)
  | .put key keySz value valueSz => cHashmapPut d key keySz value valueSz
  | .del key keySz => cHashmapDel d key keySz

def mapStep : System CHashmap MapCall Int :=
  fun d call ret d' => call.WellFormed ∧ mapCall d call = .ok (ret, d')

structure Structured (d : CHashmap) : Prop where
  pos : 0 < d.maxCount
  array : d.ptr.length = d.maxCount
  counted : d.curCount = d.ptr.flatten.length
  room : d.curCount ≤ d.maxCount

def PutShape (d : CHashmap) (key : Option Bytes) (keySz : Nat) (value : Option Bytes) (valueSz : Nat)
    (ret : Int) (d' : CHashmap) : Prop :=
  (ret = -1 ∧ d' = d ∧
    (d.curCount = d.maxCount ∨ key = none ∨ keySz = 0 ∨ value = none ∨ valueSz = 0)) ∨
  (ret = 0 ∧ ∃ i chain pair, d.ptr[i]? = some chain ∧
    d' = { d with ptr := d.ptr.set i (pair :: chain), curCount := d.curCount + 1 })

def DelShape (d : CHashmap) (key : Option Bytes) (keySz : Nat) (ret : Int) (d' : CHashmap) : Prop :=
  match key with
  | none => ret = -1 ∧ d' = d
  | some key => ret = 0 ∧ ∃ chain, d.ptr[cHashmapGetIndex d key keySz]? = some chain ∧
      ((d' = d ∧ ∀ pair ∈ chain, d.cmpCb pair.key key keySz ≠ 0) ∨
        ∃ before pair after, chain = before ++ pair :: after ∧ d.cmpCb pair.key key keySz = 0 ∧
          (∀ earlier ∈ before, d.cmpCb earlier.key key keySz ≠ 0) ∧ 0 < d.curCount ∧
          d' = { d with
            ptr := d.ptr.set (cHashmapGetIndex d key keySz) (before ++ after)
            curCount := d.curCount - 1 })

def MeetsStructure (d : CHashmap) (call : MapCall) : Prop :=
  ∃ ret d', mapCall d call = .ok (ret, d') ∧ Structured d' ∧ match call with
    | .put key keySz value valueSz => PutShape d key keySz value valueSz ret d'
    | .del key keySz => DelShape d key keySz ret d'

/-- The value is copied from the key first, so the key's memory has to hold as many bytes. -/
def MapCondition (d : CHashmap) : MapCall → Prop
  | .put (some key) keySz (some _) valueSz =>
      d.curCount < d.maxCount → 0 < keySz → 0 < valueSz → valueSz ≤ key.length
  | _ => True

def Traverses (d : CHashmap) : Prop :=
  cHashmapTraverse d true = .ok (if 0 < d.curCount then 0 else -1, d.ptr.flatten) ∧
    d.ptr.flatten.length = d.curCount

theorem cHashmapGetIndex_lt {d : CHashmap} (pos : 0 < d.maxCount) (key : Bytes) (keySz : Nat) :
    cHashmapGetIndex d key keySz < d.maxCount :=
  (Nat.mod_le _ _).trans_lt (jumpConsistent_lt jumpStep _ pos)

theorem cHashmapBucket_eq {d : CHashmap} {i : Nat} {chain : List CMemberPair} :
    cHashmapBucket d i = .ok chain ↔ d.ptr[i]? = some chain := by
  unfold cHashmapBucket
  split
  next found => simp [found]
  next missing => simp [missing]

theorem Structured.bucket {d : CHashmap} (structured : Structured d) (key : Bytes) (keySz : Nat) :
    ∃ chain, d.ptr[cHashmapGetIndex d key keySz]? = some chain :=
  ⟨_, List.getElem?_eq_getElem (by rw [structured.array]; exact cHashmapGetIndex_lt structured.pos key keySz)⟩

theorem length_flatten_set {α : Type} {chains : List (List α)} {i : Nat} {chain : List α}
    (there : chains[i]? = some chain) (other : List α) :
    (chains.set i other).flatten.length + chain.length = chains.flatten.length + other.length := by
  induction chains generalizing i with
  | nil => simp at there
  | cons first rest ih =>
      cases i with
      | zero =>
          obtain rfl : first = chain := by simpa using there
          simp only [List.set_cons_zero, List.flatten_cons, List.length_append]
          omega
      | succ i =>
          have later := ih (i := i) (by simpa using there)
          simp only [List.set_cons_succ, List.flatten_cons, List.length_append]
          omega

theorem Structured.replace {d : CHashmap} (structured : Structured d) {i count : Nat}
    {chain other : List CMemberPair} (there : d.ptr[i]? = some chain)
    (counted : count + chain.length = d.curCount + other.length) (room : count ≤ d.maxCount) :
    Structured { d with ptr := d.ptr.set i other, curCount := count } where
  pos := structured.pos
  array := (List.length_set ..).trans structured.array
  counted := by
    have same := length_flatten_set there other
    have before := structured.counted
    simp only
    omega
  room := room

theorem cHashmapPut_refused {d : CHashmap} {key value : Option Bytes} {keySz valueSz : Nat}
    (refused : d.maxCount ≤ d.curCount ∨ key = none ∨ keySz = 0 ∨ value = none ∨ valueSz = 0) :
    cHashmapPut d key keySz value valueSz = .ok (-1, d) := by
  unfold cHashmapPut
  split
  · rw [if_neg]
    rintro ⟨some, some', less⟩
    rcases refused with full | null | empty | null | empty
    · exact Nat.not_lt.mpr full less
    · cases null
    · exact Nat.ne_of_gt some empty
    · cases null
    · exact Nat.ne_of_gt some' empty
  · rfl

theorem cHashmapPut_taken {d : CHashmap} (structured : Structured d) {key : Bytes} (value : Bytes) {keySz valueSz : Nat}
    (room : d.curCount < d.maxCount) (some : 0 < keySz) (some' : 0 < valueSz) (fits : keySz ≤ key.length) :
    (∃ ret d', cHashmapPut d (.some key) keySz (.some value) valueSz = .ok (ret, d') ∧ Structured d' ∧
      PutShape d (.some key) keySz (.some value) valueSz ret d') ↔ valueSz ≤ key.length := by
  have goes : 0 < keySz ∧ 0 < valueSz ∧ d.curCount < d.maxCount := ⟨some, some', room⟩
  have first : memcpy key keySz = .ok (key.take keySz) := if_pos fits
  constructor
  · rintro ⟨ret, d', returned, _⟩
    by_contra long
    have second : memcpy key valueSz = .fail .outOfBounds := if_neg long
    simp [cHashmapPut, goes, cMemberPairAlloc, first, second] at returned
  · intro short
    have second : memcpy key valueSz = .ok (key.take valueSz) := if_pos short
    obtain ⟨chain, there⟩ := structured.bucket key keySz
    let pair : CMemberPair := ⟨List.replicate (8 * keySz) 0, List.replicate (8 * valueSz) 0⟩
    refine ⟨0, { d with ptr := d.ptr.set _ (pair :: chain), curCount := d.curCount + 1 }, ?_, ?_,
      .inr ⟨rfl, _, chain, pair, there, rfl⟩⟩
    · simp only [cHashmapPut, if_pos goes, cMemberPairAlloc, first, second, Exec.ok_bind, Exec.pure_eq,
        cHashmapBucket_eq.mpr there, pair]
    · apply structured.replace there
      · rw [List.length_cons]
        omega
      · exact room

theorem cHashmapDel_meets {d : CHashmap} (structured : Structured d) (key : Option Bytes) (keySz : Nat) :
    ∃ ret d', cHashmapDel d key keySz = .ok (ret, d') ∧ Structured d' ∧ DelShape d key keySz ret d' := by
  cases key with
  | none => exact ⟨-1, d, rfl, structured, rfl, rfl⟩
  | some key =>
      obtain ⟨chain, there⟩ := structured.bucket key keySz
      simp only [cHashmapDel, cHashmapBucket_eq.mpr there, Exec.ok_bind]
      cases find : cHashmapSearch d chain key keySz with
      | none =>
          refine ⟨0, d, rfl, structured, rfl, chain, there, .inl ⟨rfl, ?_⟩⟩
          intro pair member
          simpa using Chain.search_eq_none.mp find pair member
      | some found =>
          obtain ⟨split, hit, misses⟩ := Chain.search_eq_some.mp find
          have counted := structured.counted
          have shrunk := length_flatten_set there (found.before ++ found.after)
          have shorter : chain.length = (found.before ++ found.after).length + 1 := by
            rw [split, List.length_append, List.length_append, List.length_cons, Nat.add_assoc]
          have some : 0 < d.curCount := by omega
          have room := structured.room
          refine ⟨0, _, rfl, structured.replace there (by omega) (by omega), rfl, chain, there,
            .inr ⟨found.before, found.here, found.after, split, by simpa using hit, ?_, some, rfl⟩⟩
          intro earlier member
          simpa using misses earlier member

theorem mapCall_meets {d : CHashmap} (structured : Structured d) {call : MapCall} (fine : call.WellFormed) :
    MeetsStructure d call ↔ MapCondition d call := by
  cases call with
  | del key keySz => exact ⟨fun _ => trivial, fun _ => cHashmapDel_meets structured key keySz⟩
  | put key keySz value valueSz =>
      have refuses (refused : d.maxCount ≤ d.curCount ∨ key = none ∨ keySz = 0 ∨ value = none ∨ valueSz = 0) :
          MeetsStructure d (.put key keySz value valueSz) := by
        refine ⟨-1, d, cHashmapPut_refused refused, structured, .inl ⟨rfl, rfl, ?_⟩⟩
        exact refused.imp_left (Nat.le_antisymm structured.room)
      cases key with
      | none => exact ⟨fun _ => trivial, fun _ => refuses (by simp)⟩
      | some key =>
          cases value with
          | none => exact ⟨fun _ => trivial, fun _ => refuses (by simp)⟩
          | some value =>
              by_cases goes : d.curCount < d.maxCount ∧ 0 < keySz ∧ 0 < valueSz
              · obtain ⟨room, some, some'⟩ := goes
                have taken := cHashmapPut_taken structured value room some some' (fine.1 key rfl)
                exact taken.trans ⟨fun short _ _ _ => short, fun short => short room some some'⟩
              · have refused : d.maxCount ≤ d.curCount ∨ keySz = 0 ∨ valueSz = 0 := by omega
                refine ⟨fun _ room some some' => absurd ⟨room, some, some'⟩ goes, fun _ => refuses ?_⟩
                rcases refused with full | empty | empty
                · exact .inl full
                · exact .inr (.inr (.inl empty))
                · exact .inr (.inr (.inr (.inr empty)))

theorem mapM_bucket {d : CHashmap} (n : Nat) (inside : n ≤ d.ptr.length) :
    (List.range n).mapM (cHashmapBucket d) = .ok (d.ptr.take n) := by
  induction n with
  | zero => rfl
  | succ n ih =>
      have there : d.ptr[n]? = some d.ptr[n] := List.getElem?_eq_getElem inside
      have last : [n].mapM (cHashmapBucket d) = Exec.ok [d.ptr[n]] := by
        simp only [List.mapM_cons, cHashmapBucket_eq.mpr there, Exec.ok_bind, List.mapM_nil, Exec.pure_eq]
      rw [List.range_succ, List.mapM_append, ih (Nat.le_of_succ_le inside), last, List.take_add_one, there]
      rfl

theorem traverses_of {d : CHashmap} (array : d.ptr.length = d.maxCount)
    (counted : d.curCount = d.ptr.flatten.length) : Traverses d := by
  refine ⟨?_, counted.symm⟩
  unfold cHashmapTraverse
  by_cases some : 0 < d.curCount
  · rw [if_pos some, if_pos some]
    have all := mapM_bucket d.maxCount array.ge
    rw [List.take_of_length_le array.le] at all
    rw [all]
    rfl
  · rw [if_neg some, if_neg some]
    have none : d.ptr.flatten.length = 0 := by
      rw [← counted]
      omega
    rw [List.eq_nil_of_length_eq_zero none]

theorem Structured.traverses {d : CHashmap} (structured : Structured d) : Traverses d :=
  traverses_of structured.array structured.counted

theorem mapStep_structured {d d' : CHashmap} {call : MapCall} {ret : Int} (structured : Structured d)
    (step : guarded MapCondition mapStep d call ret d') : Structured d' := by
  obtain ⟨condition, fine, returned⟩ := step
  obtain ⟨ret', d'', returned', kept, _⟩ := (mapCall_meets structured fine).mpr condition
  rw [returned] at returned'
  cases returned'
  exact kept

theorem hashmap_structure {start d : CHashmap} (structured : Structured start) {history : List (MapCall × Int)}
    (run : Run (guarded MapCondition mapStep) start history d) :
    Structured d ∧ (∀ call, call.WellFormed → (MeetsStructure d call ↔ MapCondition d call)) ∧ Traverses d := by
  have kept : Structured d := run.invariant Structured (fun _ _ _ _ => mapStep_structured) structured
  exact ⟨kept, fun _ fine => mapCall_meets kept fine, kept.traverses⟩

-- one bucket, room for one pair, and callbacks that put and find everything there
abbrev smallMap : CHashmap := ⟨1, 0, [[]], fun _ _ => 0, fun _ _ _ => 0, false, false⟩

theorem smallMap_structured : Structured smallMap := ⟨by decide, rfl, rfl, by decide⟩

theorem hashmap_long_value :
    Structured smallMap ∧ MapCall.WellFormed (.put (some [1]) 1 (some [2, 3]) 2) ∧
      mapCall smallMap (.put (some [1]) 1 (some [2, 3]) 2) = .fail .outOfBounds ∧
      ¬ MeetsStructure smallMap (.put (some [1]) 1 (some [2, 3]) 2) := by
  have faults : mapCall smallMap (.put (some [1]) 1 (some [2, 3]) 2) = .fail .outOfBounds := rfl
  refine ⟨smallMap_structured, ?_, faults, ?_⟩
  · constructor
    · rintro _ ⟨⟩
      exact Nat.le_refl 1
    · rintro _ ⟨⟩
      exact Nat.le_refl 2
  · rintro ⟨ret, d', returned, _⟩
    rw [faults] at returned
    cases returned

abbrev smallMapFull : CHashmap :=
  { smallMap with ptr := [[⟨List.replicate 8 0, List.replicate 8 0⟩]], curCount := 1 }

theorem hashmap_structure_full :
    Run (guarded MapCondition mapStep) smallMap [(.put (some [1]) 1 (some [2]) 1, 0)] smallMapFull ∧
      Structured smallMapFull ∧ MeetsStructure smallMapFull (.del (some [1]) 1) ∧ Traverses smallMapFull := by
  have fine : MapCall.WellFormed (.put (some [1]) 1 (some [2]) 1) := by
    constructor
    · rintro _ ⟨⟩
      exact Nat.le_refl 1
    · rintro _ ⟨⟩
      exact Nat.le_refl 1
  have run : Run (guarded MapCondition mapStep) smallMap [(.put (some [1]) 1 (some [2]) 1, 0)] smallMapFull :=
    .single ⟨fun _ _ _ => Nat.le_refl 1, fine, rfl⟩
  obtain ⟨kept, meets, traverses⟩ := hashmap_structure smallMap_structured run
  refine ⟨run, kept, (meets (.del (some [1]) 1) ?_).mpr trivial, traverses⟩
  rintro _ ⟨⟩
  exact Nat.le_refl 1

end SampleFs.Proof.Hashmap
