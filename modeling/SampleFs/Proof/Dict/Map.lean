import SampleFs.Proof.Dict.Invariant

namespace SampleFs.Proof.Dict
open Lib Metaserver

variable {V : Type}

/-! ## The map a table stands for -/

def lookup (d : Dict V) (key : CString) : Option V :=
  ((d.members (dictIndex d key)).find? fun pair => pair.key = key).map DictDataPair.val

abbrev Contents (V : Type) := CString → Option V

def Contents.reply (m : Contents V) : DictCall V → DictReply V
  | .put key val => .put (if (m key).isSome then none else some val)
  | .get key => .get (m key)
  | .del key => match m key with
      | some val => .del 0 (some val)
      | none => .del (-1) none

def Contents.next (m : Contents V) : DictCall V → Contents V
  | .put key val => if (m key).isSome then m else Function.update m key (some val)
  | .get _ => m
  | .del key => Function.update m key none

def stored (history : List (DictCall V × DictReply V)) : Contents V :=
  history.foldl (fun m event => m.next event.1) fun _ => none

def Refuses (m : Contents V) : DictCall V → Prop
  | .put key _ => (m key).isSome
  | .get _ => True
  | .del key => m key = none

structure MeetsMap (m : Contents V) (d : Dict V) (call : DictCall V) : Prop where
  reply : (dictCall d call).1 = m.reply call
  next : ∀ key, lookup (dictCall d call).2 key = m.next call key
  unchanged : Refuses m call → (dictCall d call).2 = d
  own : ∀ found, dictFind d call.key = some found → found.here.key = call.key

def dictStep : System (Dict V) (DictCall V) (DictReply V) :=
  fun d call reply d' => dictCall d call = (reply, d') ∧ entries d' < 2 ^ 32

theorem lookup_eq_none {d : Dict V} {key : CString} :
    lookup d key = none ↔ ∀ pair ∈ d.members (dictIndex d key), pair.key ≠ key := by
  simp [lookup]

theorem lookup_eq_some {d : Dict V} (valid : Valid d) {key : CString} {before after : List (DictDataPair V)}
    {pair : DictDataPair V} (split : d.members (dictIndex d key) = before ++ pair :: after)
    (own : pair.key = key) : lookup d key = some pair.val := by
  have nodup := valid.distinct (dictIndex d key)
  rw [split, List.map_append, List.map_cons, List.nodup_append] at nodup
  have misses : before.find? (fun other => other.key = key) = none := by
    apply List.find?_eq_none.mpr
    intro other member same
    exact nodup.2.2 other.key (List.mem_map_of_mem member) pair.key (by simp)
      ((of_decide_eq_true same).trans own.symm)
  simp [lookup, split, List.find?_append, misses, own]

/-! ## The operations on that map -/

theorem dictPut_lookup {d : Dict V} {key : CString} {val : V} (absent : dictFind d key = none)
    (other : CString) :
    lookup (dictPut d key val).2 other = Function.update (lookup d) key (some val) other := by
  have index : dictIndex (dictPut d key val).2 other = dictIndex d other := by
    simp [dictPut, absent, dictIndex]
  by_cases same : other = key
  · subst same
    rw [Function.update_self, lookup, index]
    simp [dictPut, absent]
  · rw [Function.update_of_ne same, lookup, lookup, index]
    by_cases bucket : dictIndex d other = dictIndex d key
    · simp [dictPut, absent, bucket, Ne.symm same]
    · simp [dictPut, absent, Function.update_of_ne bucket]

theorem dictDel_lookup {d : Dict V} (valid : Valid d) {key : CString}
    {found : Chain.Found (DictDataPair V)} (stops : dictFind d key = some found)
    (own : found.here.key = key) (other : CString) :
    lookup (dictDel d key).2.2 other = Function.update (lookup d) key none other := by
  obtain ⟨split, _, _⟩ := (dictFind_eq_some valid key).mp stops
  have nodup := valid.distinct (dictIndex d key)
  rw [split, List.map_append, List.map_cons, List.nodup_append, List.nodup_cons] at nodup
  have index : dictIndex (dictDel d key).2.2 other = dictIndex d other := by
    simp [dictDel, stops, dictIndex]
  by_cases same : other = key
  · subst same
    rw [Function.update_self, lookup_eq_none, index]
    intro pair member
    simp only [dictDel, stops, Function.update_self, List.mem_append] at member
    rw [← own]
    rcases member with member | member
    · exact nodup.2.2 pair.key (List.mem_map_of_mem member) found.here.key (by simp)
    · intro equal
      exact nodup.2.1.1 (equal ▸ List.mem_map_of_mem member)
  · rw [Function.update_of_ne same, lookup, lookup, index]
    by_cases bucket : dictIndex d other = dictIndex d key
    · have skips : ¬ found.here.key = other := fun equal => same (equal.symm.trans own)
      simp [dictDel, stops, bucket, split, List.find?_append, skips]
    · simp [dictDel, stops, Function.update_of_ne bucket]

theorem dictCall_meets {d : Dict V} (valid : Valid d) {m : Contents V}
    (agrees : ∀ key, lookup d key = m key) (call : DictCall V) (unshadowed : Unshadowed d call.key) :
    MeetsMap m d call := by
  have own (found) (stops : dictFind d call.key = some found) : found.here.key = call.key :=
    dictFind_own valid unshadowed stops
  have absent (none : dictFind d call.key = none) : m call.key = Option.none := by
    rw [← agrees, lookup_eq_none]
    exact (dictFind_absent valid unshadowed).mp none
  have present (found) (stops : dictFind d call.key = some found) : m call.key = some found.here.val := by
    rw [← agrees]
    exact lookup_eq_some valid ((dictFind_eq_some valid _).mp stops).1 (own found stops)
  have equal : lookup d = m := funext agrees
  cases call with
  | put key val =>
      cases find : dictFind d key with
      | none =>
          have gone : m key = none := absent find
          refine ⟨?_, ?_, ?_, own⟩
          · simp [dictCall, dictPut, find, Contents.reply, gone]
          · intro other
            simpa [dictCall, Contents.next, gone, equal] using dictPut_lookup find other
          · intro refused
            simp [Refuses, gone] at refused
      | some found =>
          have there : m key = some found.here.val := present found find
          refine ⟨?_, ?_, ?_, own⟩
          · simp [dictCall, dictPut, find, Contents.reply, there]
          · intro other
            simpa [dictCall, dictPut, find, Contents.next, there] using agrees other
          · intro _
            simp [dictCall, dictPut, find]
  | get key =>
      refine ⟨?_, agrees, fun _ => rfl, own⟩
      cases find : dictFind d key with
      | none =>
          have gone : m key = none := absent find
          simp [dictCall, dictGet, find, Contents.reply, gone]
      | some found =>
          have there : m key = some found.here.val := present found find
          simp [dictCall, dictGet, find, Contents.reply, there]
  | del key =>
      cases find : dictFind d key with
      | none =>
          have gone : m key = none := absent find
          refine ⟨?_, ?_, ?_, own⟩
          · simp [dictCall, dictDel, find, Contents.reply, gone]
          · intro other
            rw [Contents.next, ← gone, Function.update_eq_self]
            simpa [dictCall, dictDel, find] using agrees other
          · intro _
            simp [dictCall, dictDel, find]
      | some found =>
          have there : m key = some found.here.val := present found find
          refine ⟨?_, ?_, ?_, own⟩
          · simp [dictCall, dictDel, find, Contents.reply, there]
          · intro other
            simpa [dictCall, Contents.next, equal] using
              dictDel_lookup valid find (own found find) other
          · intro refused
            simp [Refuses, there] at refused

theorem dictGet_eq_lookup {d : Dict V} (valid : Valid d) {key : CString}
    (unshadowed : Unshadowed d key) : dictGet d key = lookup d key := by
  have meets := dictCall_meets valid (fun _ => rfl) (.get key) unshadowed
  exact DictReply.get.inj meets.reply

theorem mem_of_lookup {d : Dict V} {key : CString} {val : V} (stored : lookup d key = some val) :
    ⟨key, val⟩ ∈ d.members (dictIndex d key) := by
  obtain ⟨pair, found, rfl⟩ := Option.map_eq_some_iff.mp stored
  have own : pair.key = key := by simpa using List.find?_some found
  subst own
  exact List.mem_of_find?_eq_some found

theorem dictPut_present {d : Dict V} (valid : Valid d) {key : CString} (val : V)
    (present : (lookup d key).isSome) : dictPut d key val = (none, d) := by
  obtain ⟨old, stored⟩ := Option.isSome_iff_exists.mp present
  unfold dictPut
  cases find : dictFind d key with
  | some found => rfl
  | none =>
      exact absurd (List.prefix_refl _) ((dictFind_eq_none valid key).mp find _ (mem_of_lookup stored))

def Follows (d : Dict V) (m : Contents V) : Prop :=
  Valid d ∧ entries d < 2 ^ 32 ∧ ∀ key, lookup d key = m key

theorem dictCreate_follows {maxCount : Nat} (pos : 0 < maxCount) (hashFn : CString → UInt32) :
    Follows (dictCreate maxCount hashFn : Dict V) fun _ => none := by
  refine ⟨dictCreate_valid pos hashFn, ?_, ?_⟩
  · simp [entries, Chain.total, dictCreate, dictInit]
  · intro key
    simp [lookup, dictCreate, dictInit]

theorem dictStep_valid {d d' : Dict V} {call : DictCall V} {reply : DictReply V} (valid : Valid d)
    (step : dictStep d call reply d') : Valid d' := by
  obtain ⟨taken, room⟩ := step
  obtain ⟨_, rfl⟩ := Prod.mk.inj taken
  cases call with
  | put key val => exact dictPut_valid valid key val room
  | get key => exact valid
  | del key => exact dictDel_valid valid key

theorem dictStep_follows {d d' : Dict V} {m : Contents V} {call : DictCall V} {reply : DictReply V}
    (follows : Follows d m) (step : guarded (fun d call => Unshadowed d call.key) dictStep d call reply d') :
    Follows d' (m.next call) := by
  obtain ⟨valid, room, agrees⟩ := follows
  obtain ⟨unshadowed, taken⟩ := step
  have meets := dictCall_meets valid agrees call unshadowed
  have kept := dictStep_valid valid taken
  obtain ⟨same, room'⟩ := taken
  obtain ⟨rfl, rfl⟩ := Prod.mk.inj same
  exact ⟨kept, room', meets.next⟩

theorem dict_putIfAbsent {maxCount : Nat} (pos : 0 < maxCount) (hashFn : CString → UInt32)
    {history : List (DictCall V × DictReply V)} {d : Dict V}
    (run : Run (guarded (fun d call => Unshadowed d call.key) dictStep)
      (dictCreate maxCount hashFn) history d) :
    (∀ key, lookup d key = stored history key) ∧
      ∀ call, MeetsMap (stored history) d call ↔ Unshadowed d call.key := by
  have follows : Follows d (stored history) :=
    run.follows (fun m event => Contents.next m event.1) Follows
      (fun _ _ _ _ _ => dictStep_follows) (dictCreate_follows pos hashFn)
  refine ⟨follows.2.2, fun call => ⟨?_, ?_⟩⟩
  · intro meets
    exact unshadowed_of_own follows.1 meets.own
  · exact dictCall_meets follows.1 follows.2.2 call

abbrev keyA : CString := ⟨[97], by decide⟩
abbrev keyAB : CString := ⟨[97, 98], by decide⟩

theorem dictStep_taken (d : Dict V) (call : DictCall V) (room : entries (dictCall d call).2 < 2 ^ 32) :
    dictStep d call (dictCall d call).1 (dictCall d call).2 :=
  ⟨rfl, room⟩

abbrev oneBucket : Dict Nat := dictCreate 1 fun _ => 0

abbrev keyB : CString := ⟨[98], by decide⟩

/-- One chain, with `keyB` in front of `keyA`. -/
abbrev twoKeys : Dict Nat := (dictPut (dictPut oneBucket keyA 1).2 keyB 2).2

theorem twoKeys_run : Run dictStep oneBucket [(.put keyA 1, .put (some 1)), (.put keyB 2, .put (some 2))] twoKeys :=
  .cons (dictStep_taken oneBucket (.put keyA 1) (by decide))
    (.single (dictStep_taken (dictPut oneBucket keyA 1).2 (.put keyB 2) (by decide)))

theorem dict_get_extension :
    Run dictStep oneBucket [(.put keyAB 7, .put (some 7))] (dictPut oneBucket keyAB 7).2 ∧
      stored [(DictCall.put keyAB 7, DictReply.put (some 7))] keyA = none ∧
      dictGet (dictPut oneBucket keyAB 7).2 keyA = some 7 ∧
      ¬ MeetsMap (stored [(DictCall.put keyAB 7, DictReply.put (some 7))])
        (dictPut oneBucket keyAB 7).2 (.get keyA) := by
  have absent : stored [(DictCall.put keyAB 7, DictReply.put (some 7))] keyA = none := by decide
  have found : dictGet (dictPut oneBucket keyAB 7).2 keyA = some 7 := by decide
  refine ⟨.single (dictStep_taken oneBucket (.put keyAB 7) (by decide)), absent, found, ?_⟩
  intro meets
  have reply := meets.reply
  simp only [dictCall, Contents.reply, found, absent] at reply
  cases reply

theorem dict_putIfAbsent_ab :
    ∃ d, Run (guarded (fun d call => Unshadowed d call.key) dictStep) oneBucket
        [(.put keyA 1, .put (some 1)), (.put keyAB 2, .put (some 2))] d ∧
      MeetsMap (stored [(.put keyA 1, .put (some 1)), (.put keyAB 2, .put (some 2))]) d (.get keyAB) := by
  have first : Unshadowed oneBucket keyA := unshadowed_of_forall (by decide)
  have second : Unshadowed (dictPut oneBucket keyA 1).2 keyAB := unshadowed_of_forall (by decide)
  have third : Unshadowed (dictPut (dictPut oneBucket keyA 1).2 keyAB 2).2 keyAB :=
    unshadowed_of_forall (by decide)
  have run : Run (guarded (fun d call => Unshadowed d call.key) dictStep) oneBucket
      [(.put keyA 1, .put (some 1)), (.put keyAB 2, .put (some 2))]
      (dictPut (dictPut oneBucket keyA 1).2 keyAB 2).2 :=
    .cons ⟨first, dictStep_taken oneBucket (.put keyA 1) (by decide)⟩
      (.single ⟨second, dictStep_taken (dictPut oneBucket keyA 1).2 (.put keyAB 2) (by decide)⟩)
  exact ⟨_, run, ((dict_putIfAbsent Nat.one_pos (fun _ => 0) run).2 (.get keyAB)).mpr third⟩

end SampleFs.Proof.Dict
