import MaxMindDB.Corruption
import MaxMindDB.Extension.SameAnswer
import Mathlib.Data.List.Nodup

/-!
# Metadata objects of the C extension

`Metadata_init` and `Metadata_dealloc`. Every argument of `Metadata_init` is optional, and what it stores
for one that is not given is a local variable that nothing has been assigned to. `Metadata_dealloc`
releases the nine members without looking whether they are set.

`metadata_defined_iff`: when the life of a metadata object is defined, and which references it leaks.
`metadata_agrees`: on the keywords that the class in Python refuses, that of the extension is undefined;
on others the two have the same fields.
-/

namespace MaxMindDB.Extension

open Raising Except

/-! ## The members -/

/-- The members of `Metadata_obj`, as `kwlist` names them. -/
inductive Member where
  | binaryFormatMajorVersion
  | binaryFormatMinorVersion
  | buildEpoch
  | databaseType
  | description
  | ipVersion
  | languages
  | nodeCount
  | recordSize
  deriving DecidableEq

namespace Member

/-- `kwlist`. -/
def all : List Member :=
  [binaryFormatMajorVersion, binaryFormatMinorVersion, buildEpoch, databaseType, description, ipVersion,
    languages, nodeCount, recordSize]

def name : Member → String
  | binaryFormatMajorVersion => "binary_format_major_version"
  | binaryFormatMinorVersion => "binary_format_minor_version"
  | buildEpoch => "build_epoch"
  | databaseType => "database_type"
  | description => "description"
  | ipVersion => "ip_version"
  | languages => "languages"
  | nodeCount => "node_count"
  | recordSize => "record_size"

/-- The place in `kwlist`. -/
def index (m : Member) : ℕ := all.idxOf m

theorem mem_all (m : Member) : m ∈ all := by
  cases m <;> decide

theorem map_name_all : all.map name = Metadata.fields := rfl

theorem name_injective : Function.Injective name := by
  intro m m' h
  cases m <;> cases m' <;> first | rfl | exact absurd h (by decide)

/-- The members behind the first `k`. -/
def behind (k : ℕ) : List Member := all.filter fun m => k ≤ m.index

theorem mem_behind {k : ℕ} {m : Member} : m ∈ behind k ↔ k ≤ m.index := by
  rw [behind, List.mem_filter, decide_eq_true_eq, and_iff_right m.mem_all]

theorem length_behind {k : ℕ} (h : k ≤ 9) : (behind k).length = 9 - k := by
  have hall : ∀ k ≤ 9, (behind k).length = 9 - k := by decide
  exact hall k h

end Member

/-! ## The object -/

/-- A `PyObject *`. -/
inductive Pointer (α : Type) where
  | null
  /-- A local variable that nothing has been assigned to. -/
  | unassigned
  | object (x : α)

/-- Whether it can be dereferenced. -/
def Pointer.isObject {α : Type} : Pointer α → Bool
  | .object _ => true
  | _ => false

variable {α : Type}

/-- `Metadata_obj`, with the number of references that it has taken and not released. -/
structure MetadataObj (α : Type) where
  members : Member → Pointer α
  references : ℕ

/-- What `tp_new` makes. An object of a heap type has a reference to its type. -/
def MetadataObj.alloc : MetadataObj α := ⟨fun _ => .null, 1⟩

/-- What there is for a member among the arguments. -/
def argument (args : List α) (kwds : List (String × α)) (m : Member) : Pointer α :=
  match args[m.index]? with
  | some x => .object x
  | none =>
    match kwds.lookup m.name with
    | some x => .object x
    | none => .unassigned

/-- `PyArg_ParseTupleAndKeywords(args, kwds, "|OOOOOOOOO", kwlist, …)`: what it leaves in the nine
variables, or `none` when it raises. -/
def parseArgs (args : List α) (kwds : List (String × α)) : Option (Member → Pointer α) :=
  if 9 < args.length + kwds.length then none
  else if kwds.all fun item => (Member.behind args.length).any fun m => item.1 = m.name then
    some (argument args kwds)
  -- a keyword that is unknown, or given by position too
  else none

/-- Each member can be dereferenced. -/
def AllObjects (members : Member → Pointer α) : Bool := Member.all.all fun m => (members m).isObject

/-- `Metadata_init`: whether it succeeds, and the object; `none` when it dereferences a pointer that
points to no object. What the members held before is not released. -/
def metadataInit (s : MetadataObj α) (args : List α) (kwds : List (String × α)) :
    Option (Bool × MetadataObj α) :=
  match parseArgs args kwds with
  | none => some (false, s)
  | some values =>
    if AllObjects values then some (true, ⟨values, s.references + 9⟩) else none

/-- `Metadata_dealloc`: the number of references that are leaked. The one to the type is not released. -/
def metadataDealloc (s : MetadataObj α) : Option ℕ :=
  if AllObjects s.members then some (s.references - 9) else none

/-- The arguments of a call of `__init__`; the keywords of a call are distinct. -/
structure InitCall (α : Type) where
  args : List α
  kwds : List (String × α)
  distinct : (kwds.map Prod.fst).Nodup

/-- An object that is made, on which `__init__` is called any number of times, up to its deallocation. -/
def metadataLife (calls : List (InitCall α)) : Option ℕ := do
  let s ← calls.foldlM (fun s c => (metadataInit s c.args c.kwds).map Prod.snd) MetadataObj.alloc
  metadataDealloc s

/-- `PyObject_Call(state->Metadata_Type, args, kwds)`, which releases the object where `__init__` raises. -/
def metadataCall (args : List α) (kwds : List (String × α)) : Option (Option (MetadataObj α)) := do
  let (succeeded, s) ← metadataInit .alloc args kwds
  if succeeded then return some s
  else do
    let _ ← metadataDealloc s
    return none

/-! ## What is parsed -/

section

variable {args : List α} {kwds : List (String × α)} {values : Member → Pointer α}

theorem allObjects_iff : AllObjects values = true ↔ ∀ m, (values m).isObject = true := by
  unfold AllObjects
  rw [List.all_eq_true]
  exact ⟨fun h m => h m m.mem_all, fun h m _ => h m⟩

theorem parseArgs_eq_some : parseArgs args kwds = some values ↔
    (args.length + kwds.length ≤ 9 ∧ ∀ item ∈ kwds, ∃ m ∈ Member.behind args.length, item.1 = m.name) ∧
      argument args kwds = values := by
  have hall : (kwds.all fun item => (Member.behind args.length).any fun m => item.1 = m.name) = true ↔
      ∀ item ∈ kwds, ∃ m ∈ Member.behind args.length, item.1 = m.name := by
    simp only [List.all_eq_true, List.any_eq_true, decide_eq_true_eq]
  unfold parseArgs
  split_ifs with hmany hknown
  · exact iff_of_false (by simp) fun h => absurd h.1.1 (Nat.not_le.mpr hmany)
  · rw [Option.some.injEq, and_iff_right ⟨Nat.not_lt.mp hmany, hall.mp hknown⟩]
  · exact iff_of_false (by simp) fun h => hknown (hall.mpr h.1.2)

theorem isObject_iff (m : Member) : (argument args kwds m).isObject = true ↔
    m.index < args.length ∨ m.name ∈ kwds.map Prod.fst := by
  unfold argument
  rcases Nat.lt_or_ge m.index args.length with hlt | hge
  · rw [List.getElem?_eq_getElem hlt]
    exact iff_of_true rfl (.inl hlt)
  rw [List.getElem?_eq_none hge, or_iff_right (Nat.not_lt.mpr hge)]
  cases hlookup : kwds.lookup m.name with
  | none =>
    refine iff_of_false (by simp [Pointer.isObject]) fun hmem => ?_
    obtain ⟨item, hitem, hname⟩ := List.mem_map.mp hmem
    have hfalse := List.lookup_eq_none_iff.mp hlookup item hitem
    simp [hname] at hfalse
  | some x =>
    refine iff_of_true rfl ?_
    obtain ⟨l, r, rfl, -⟩ := List.lookup_eq_some_iff.mp hlookup
    simp

/-- **All nine are set when nine are given.** -/
theorem allObjects_iff_length (hdistinct : (kwds.map Prod.fst).Nodup)
    (h : parseArgs args kwds = some values) :
    AllObjects values = true ↔ args.length + kwds.length = 9 := by
  obtain ⟨⟨hle, hknown⟩, rfl⟩ := parseArgs_eq_some.mp h
  have hlen : ((Member.behind args.length).map Member.name).length = 9 - args.length := by
    rw [List.length_map, Member.length_behind (by omega)]
  have hnodup : ((Member.behind args.length).map Member.name).Nodup := by
    refine List.Nodup.map Member.name_injective (List.Nodup.filter _ ?_)
    decide
  have hsub : kwds.map Prod.fst ⊆ (Member.behind args.length).map Member.name := by
    intro key hkey
    obtain ⟨item, hitem, rfl⟩ := List.mem_map.mp hkey
    obtain ⟨m, hm, hname⟩ := hknown item hitem
    exact List.mem_map.mpr ⟨m, hm, hname.symm⟩
  have hall : AllObjects (argument args kwds) = true ↔
      (Member.behind args.length).map Member.name ⊆ kwds.map Prod.fst := by
    rw [allObjects_iff]
    constructor
    · intro hobjects key hkey
      obtain ⟨m, hm, rfl⟩ := List.mem_map.mp hkey
      have hbehind := Member.mem_behind.mp hm
      exact ((isObject_iff m).mp (hobjects m)).resolve_left (Nat.not_lt.mpr hbehind)
    · intro hsup m
      refine (isObject_iff m).mpr ?_
      rcases Nat.lt_or_ge m.index args.length with hlt | hge
      · exact .inl hlt
      · exact .inr (hsup (List.mem_map_of_mem (Member.mem_behind.mpr hge)))
  rw [hall]
  constructor
  · intro hsup
    have hlength := (List.subperm_of_subset hnodup hsup).length_le
    rw [hlen, List.length_map] at hlength
    omega
  · intro hnine
    have hlength : ((Member.behind args.length).map Member.name).length ≤ (kwds.map Prod.fst).length := by
      rw [hlen, List.length_map]
      omega
    exact ((List.subperm_of_subset hdistinct hsub).perm_of_length_le hlength).symm.subset

end

/-! ## The life of an object -/

/-- `__init__` does not raise. -/
def InitCall.Accepted (c : InitCall α) : Bool := (parseArgs c.args c.kwds).isSome

/-- All nine arguments are given. -/
def InitCall.Complete (c : InitCall α) : Prop := c.args.length + c.kwds.length = 9

/-- One more call. -/
def MetadataObj.init (s : MetadataObj α) (c : InitCall α) : Option (MetadataObj α) :=
  (metadataInit s c.args c.kwds).map Prod.snd

section

variable {s s' : MetadataObj α} {c : InitCall α} {calls : List (InitCall α)}

/-- **What a call does.** It raises and changes nothing, or takes nine references. -/
theorem MetadataObj.init_eq_some : s.init c = some s' ↔
    (c.Accepted = false ∧ s' = s) ∨
      (c.Accepted = true ∧ c.Complete ∧ s' = ⟨argument c.args c.kwds, s.references + 9⟩) := by
  unfold init metadataInit InitCall.Accepted InitCall.Complete
  cases hparse : parseArgs c.args c.kwds with
  | none => simp [eq_comm]
  | some values =>
    have hall := allObjects_iff_length c.distinct hparse
    obtain ⟨-, rfl⟩ := parseArgs_eq_some.mp hparse
    by_cases hobjects : AllObjects (argument c.args c.kwds) = true
    · simp [hobjects, hall.mp hobjects, eq_comm]
    · simp [hobjects, mt hall.mpr hobjects]

theorem MetadataObj.init_eq_none : s.init c = none ↔ c.Accepted = true ∧ ¬ c.Complete := by
  have hsome : (∃ s', s.init c = some s') ↔ c.Accepted = false ∨ c.Accepted = true ∧ c.Complete := by
    constructor
    · rintro ⟨s', h⟩
      exact (init_eq_some.mp h).imp And.left fun h => ⟨h.1, h.2.1⟩
    · rintro (h | ⟨haccepted, hcomplete⟩)
      · exact ⟨s, init_eq_some.mpr (.inl ⟨h, rfl⟩)⟩
      · exact ⟨_, init_eq_some.mpr (.inr ⟨haccepted, hcomplete, rfl⟩)⟩
  rw [← not_iff_not, ← ne_eq, Option.ne_none_iff_exists', hsome]
  cases c.Accepted <;> simp

/-- The members are set once a call has succeeded. -/
theorem MetadataObj.init_step (h : s.init c = some s') :
    s'.references = s.references + 9 * c.Accepted.toNat ∧
      AllObjects s'.members = (AllObjects s.members || c.Accepted) := by
  rcases init_eq_some.mp h with ⟨haccepted, rfl⟩ | ⟨haccepted, hcomplete, rfl⟩
  · simp [haccepted]
  · obtain ⟨values, hvalues⟩ := Option.isSome_iff_exists.mp haccepted
    obtain rfl := (parseArgs_eq_some.mp hvalues).2
    have hall := (allObjects_iff_length c.distinct hvalues).mpr hcomplete
    simp [haccepted, hall]

/-- So they are after any calls, which take nine references each that succeeds. -/
theorem MetadataObj.init_run (h : calls.foldlM MetadataObj.init s = some s') :
    s'.references = s.references + 9 * calls.countP InitCall.Accepted ∧
      AllObjects s'.members = (AllObjects s.members || decide (0 < calls.countP InitCall.Accepted)) := by
  induction calls generalizing s with
  | nil =>
    rw [List.foldlM_nil] at h
    cases h
    simp
  | cons c calls ih =>
    rw [List.foldlM_cons] at h
    obtain ⟨t, ht, h⟩ := Option.bind_eq_some_iff.mp h
    obtain ⟨hreferences, hmembers⟩ := init_step ht
    obtain ⟨hreferences', hmembers'⟩ := ih h
    rw [List.countP_cons, hreferences', hmembers', hreferences, hmembers]
    cases c.Accepted
    · simp
    · refine ⟨?_, by simp⟩
      rw [if_pos rfl, Bool.toNat_true]
      omega

/-- The calls are defined that raise or are given all arguments. -/
theorem MetadataObj.exists_run : (∃ s', calls.foldlM MetadataObj.init s = some s') ↔
    ∀ c ∈ calls, c.Accepted = true → c.Complete := by
  induction calls generalizing s with
  | nil => exact iff_of_true ⟨s, rfl⟩ fun _ h => by cases h
  | cons c calls ih =>
    rw [List.foldlM_cons, List.forall_mem_cons]
    cases hinit : s.init c with
    | none =>
      obtain ⟨haccepted, hnot⟩ := init_eq_none.mp hinit
      refine iff_of_false ?_ fun h => hnot (h.1 haccepted)
      rintro ⟨s', h⟩
      cases h
    | some t =>
      have hcall : c.Accepted = true → c.Complete := by
        intro haccepted
        rcases init_eq_some.mp hinit with ⟨hnot, -⟩ | ⟨-, hcomplete, -⟩
        · rw [haccepted] at hnot
          cases hnot
        · exact hcomplete
      rw [and_iff_right hcall]
      exact ih

end

/-- **When the life of a metadata object is defined, and what it leaks.** -/
theorem metadata_defined_iff (calls : List (InitCall α)) (leaked : ℕ) :
    metadataLife calls = some leaked ↔
      (∀ c ∈ calls, c.Accepted = true → c.Complete) ∧ 0 < calls.countP InitCall.Accepted ∧
        leaked = 9 * (calls.countP InitCall.Accepted - 1) + 1 := by
  have hrun : metadataLife calls = (calls.foldlM MetadataObj.init .alloc).bind metadataDealloc := rfl
  rw [hrun, Option.bind_eq_some_iff, ← MetadataObj.exists_run (s := .alloc)]
  have halloc : AllObjects (MetadataObj.alloc : MetadataObj α).members = false := rfl
  have hdealloc : ∀ s', calls.foldlM MetadataObj.init .alloc = some s' →
      (metadataDealloc s' = some leaked ↔ 0 < calls.countP InitCall.Accepted ∧
        leaked = 9 * (calls.countP InitCall.Accepted - 1) + 1) := by
    intro s' h
    obtain ⟨hreferences, hmembers⟩ := MetadataObj.init_run h
    rw [halloc, Bool.false_or] at hmembers
    have hnone : (MetadataObj.alloc : MetadataObj α).references = 1 := rfl
    unfold metadataDealloc
    rw [hmembers, hreferences, hnone]
    by_cases hpos : 0 < calls.countP InitCall.Accepted
    · rw [if_pos (decide_eq_true hpos), Option.some.injEq, and_iff_right hpos]
      omega
    · rw [if_neg (by simpa using hpos)]
      exact iff_of_false (by simp) fun h => hpos h.1
  constructor
  · rintro ⟨s', hs', hleaked⟩
    exact ⟨⟨s', hs'⟩, (hdealloc s' hs').mp hleaked⟩
  · rintro ⟨⟨s', hs'⟩, hleaked⟩
    exact ⟨s', hs', (hdealloc s' hs').mpr hleaked⟩

/-! ## The class in Python -/

/-- A field of the class in Python. -/
def Member.field (metadata : Metadata) : Member → Record
  | .binaryFormatMajorVersion => metadata.binaryFormatMajorVersion
  | .binaryFormatMinorVersion => metadata.binaryFormatMinorVersion
  | .buildEpoch => metadata.buildEpoch
  | .databaseType => metadata.databaseType
  | .description => metadata.description
  | .ipVersion => metadata.ipVersion
  | .languages => metadata.languages
  | .nodeCount => metadata.nodeCount
  | .recordSize => metadata.recordSize

theorem Member.field_ofDict (items : List (Record × Record)) (m : Member) :
    m.field (.ofDict items) = (dictGet items m.name).getD (.int 0) := by
  cases m <;> rfl

theorem new_error (items : List (Record × Record)) :
    ∀ e, Metadata.new items = .error e → e = .typeError := by
  have hbind : ∀ {β γ : Type} {x : Except Exc β} {f : β → Except Exc γ},
      (∀ e, x = .error e → e = .typeError) → (∀ a e, f a = .error e → e = .typeError) →
        ∀ e, (x >>= f) = .error e → e = .typeError := by
    intro β γ x f hx hf e h
    cases x with
    | error e' => exact hx e (by cases h; rfl)
    | ok a => exact hf a e h
  have hrequired : ∀ name e, Metadata.required items name = .error e → e = .typeError := by
    intro name e h
    unfold Metadata.required at h
    split at h
    · cases h
    · exact (Except.error.inj h).symm
  unfold Metadata.new
  cases items.all fun item => Metadata.fields.any fun name => item.1.keyEq (.str name) with
  | true =>
    rw [if_pos rfl]
    iterate 9 refine hbind (hrequired _) fun _ => ?_
    exact fun _ h => by cases h
  | false =>
    rw [if_neg Bool.false_ne_true]
    exact fun _ h => (Except.error.inj h).symm

section

variable {kwds : List (String × PyObj)}

theorem itemsOf_eq_map (kwds : List (String × PyObj)) :
    itemsOf kwds = kwds.map fun item => (.str item.1, item.2.record) := by
  induction kwds with
  | nil => rfl
  | cons item kwds ih => rw [itemsOf, ih, List.map_cons]

theorem dictGet_itemsOf (kwds : List (String × PyObj)) (name : String) :
    dictGet (itemsOf kwds) name = (kwds.lookup name).map PyObj.record := by
  induction kwds with
  | nil => rfl
  | cons item kwds ih =>
    obtain ⟨key, x⟩ := item
    unfold dictGet at ih ⊢
    rw [itemsOf, List.find?_cons, List.lookup_cons]
    by_cases hkey : key = name
    · simp [hkey]
    · have hne : (name == key) = false := by simpa using Ne.symm hkey
      rw [hne]
      simpa [hkey] using ih

theorem lookup_of_mem_keys {name : String} (h : name ∈ kwds.map Prod.fst) :
    ∃ x, kwds.lookup name = some x := by
  obtain ⟨item, hitem, rfl⟩ := List.mem_map.mp h
  refine Option.isSome_iff_exists.mp (Option.isSome_iff_ne_none.mpr fun hnone => ?_)
  have hfalse := List.lookup_eq_none_iff.mp hnone item hitem
  simp at hfalse

theorem mem_keys_of_lookup {name : String} {x : PyObj} (h : kwds.lookup name = some x) :
    name ∈ kwds.map Prod.fst := by
  obtain ⟨l, r, rfl, -⟩ := List.lookup_eq_some_iff.mp h
  simp

/-- The class in Python takes exactly the nine keywords. -/
theorem hasFields_iff_keys : Metadata.HasFields (itemsOf kwds) ↔
    (∀ key ∈ kwds.map Prod.fst, ∃ m : Member, key = m.name) ∧
      ∀ m : Member, m.name ∈ kwds.map Prod.fst := by
  have hknown : (∀ item ∈ itemsOf kwds, ∃ name ∈ Metadata.fields, item.1.keyEq (.str name)) ↔
      ∀ key ∈ kwds.map Prod.fst, ∃ m : Member, key = m.name := by
    rw [itemsOf_eq_map, List.forall_mem_map, List.forall_mem_map]
    refine forall₂_congr fun item _ => ?_
    rw [← Member.map_name_all]
    constructor
    · rintro ⟨name, hname, heq⟩
      obtain ⟨m, -, rfl⟩ := List.mem_map.mp hname
      exact ⟨m, by simpa using heq⟩
    · rintro ⟨m, heq⟩
      exact ⟨m.name, List.mem_map_of_mem m.mem_all, by simpa using heq⟩
  have hpresent : (∀ name ∈ Metadata.fields, ∃ v, dictGet (itemsOf kwds) name = some v) ↔
      ∀ m : Member, m.name ∈ kwds.map Prod.fst := by
    rw [← Member.map_name_all, List.forall_mem_map]
    constructor
    · intro h m
      obtain ⟨v, hv⟩ := h m m.mem_all
      rw [dictGet_itemsOf] at hv
      obtain ⟨x, hx, -⟩ := Option.map_eq_some_iff.mp hv
      exact mem_keys_of_lookup hx
    · intro h m _
      obtain ⟨x, hx⟩ := lookup_of_mem_keys (h m)
      exact ⟨x.record, by rw [dictGet_itemsOf, hx]; rfl⟩
  rw [← hknown, ← hpresent]
  exact ⟨fun h => ⟨h.known, h.present⟩, fun h => ⟨h.1, h.2⟩⟩

theorem hasFields_iff (hdistinct : (kwds.map Prod.fst).Nodup) : Metadata.HasFields (itemsOf kwds) ↔
    (parseArgs [] kwds).isSome = true ∧ kwds.length = 9 := by
  have hset : ∀ values, parseArgs [] kwds = some values →
      ((∀ m : Member, m.name ∈ kwds.map Prod.fst) ↔ kwds.length = 9) := by
    intro values hparse
    have hlength := allObjects_iff_length hdistinct hparse
    obtain rfl := (parseArgs_eq_some.mp hparse).2
    rw [List.length_nil, Nat.zero_add, allObjects_iff] at hlength
    simpa [isObject_iff] using hlength
  rw [hasFields_iff_keys, Option.isSome_iff_exists]
  constructor
  · rintro ⟨hknown, hpresent⟩
    have hsub : kwds.map Prod.fst ⊆ Metadata.fields := by
      intro key hkey
      obtain ⟨m, rfl⟩ := hknown key hkey
      exact List.mem_map_of_mem m.mem_all
    have hlength := (List.subperm_of_subset hdistinct hsub).length_le
    rw [List.length_map] at hlength
    have hparse : parseArgs [] kwds = some (argument [] kwds) := by
      refine parseArgs_eq_some.mpr ⟨⟨(Nat.zero_add _).trans_le hlength, fun item hitem => ?_⟩, rfl⟩
      obtain ⟨m, hm⟩ := hknown item.1 (List.mem_map_of_mem hitem)
      exact ⟨m, Member.mem_behind.mpr (Nat.zero_le _), hm⟩
    exact ⟨⟨_, hparse⟩, (hset _ hparse).mp hpresent⟩
  · rintro ⟨⟨values, hvalues⟩, hlength⟩
    refine ⟨fun key hkey => ?_, (hset values hvalues).mpr hlength⟩
    obtain ⟨item, hitem, rfl⟩ := List.mem_map.mp hkey
    obtain ⟨m, -, hm⟩ := (parseArgs_eq_some.mp hvalues).1.2 item hitem
    exact ⟨m, hm⟩

/-- What a call that is given all nine keywords makes, and that no other call is defined. -/
theorem metadataCall_of_hasFields (hdistinct : (kwds.map Prod.fst).Nodup)
    (h : Metadata.HasFields (itemsOf kwds)) :
    metadataCall [] kwds = some (some ⟨argument [] kwds, 10⟩) := by
  obtain ⟨hsome, hlength⟩ := (hasFields_iff hdistinct).mp h
  obtain ⟨values, hvalues⟩ := Option.isSome_iff_exists.mp hsome
  have hall := allObjects_iff_length hdistinct hvalues
  obtain rfl := (parseArgs_eq_some.mp hvalues).2
  rw [List.length_nil, Nat.zero_add] at hall
  unfold metadataCall metadataInit
  rw [hvalues]
  simp only [hall.mpr hlength, if_true]
  rfl

theorem metadataCall_of_not_hasFields (hdistinct : (kwds.map Prod.fst).Nodup)
    (h : ¬ Metadata.HasFields (itemsOf kwds)) : metadataCall [] kwds = none := by
  rw [hasFields_iff hdistinct] at h
  unfold metadataCall metadataInit
  cases hparse : parseArgs [] kwds with
  | none => rfl
  | some values =>
    have hall := allObjects_iff_length hdistinct hparse
    rw [List.length_nil, Nat.zero_add] at hall
    have hnot : ¬ AllObjects values = true := fun hobjects => h ⟨by rw [hparse]; rfl, hall.mp hobjects⟩
    simp only [hnot]
    rfl

theorem exists_argument (h : Metadata.HasFields (itemsOf kwds)) (m : Member) :
    ∃ x, argument [] kwds m = .object x ∧ kwds.lookup m.name = some x ∧
      x.record = m.field (.ofDict (itemsOf kwds)) := by
  have hname : m.name ∈ Metadata.fields := by
    rw [← Member.map_name_all]
    exact List.mem_map_of_mem m.mem_all
  obtain ⟨v, hv⟩ := h.present m.name hname
  have hget := hv
  rw [dictGet_itemsOf] at hget
  obtain ⟨x, hx, hrecord⟩ := Option.map_eq_some_iff.mp hget
  refine ⟨x, ?_, hx, ?_⟩
  · unfold argument
    rw [List.getElem?_nil, hx]
  · rw [Member.field_ofDict, hv, hrecord]
    rfl

end

/-- **The two classes.** -/
theorem metadata_agrees (kwds : List (String × PyObj)) (hdistinct : (kwds.map Prod.fst).Nodup) :
    (∃ s metadata, metadataCall [] kwds = some (some s) ∧
        Metadata.new (itemsOf kwds) = .ok metadata ∧
          ∀ m, ∃ x, s.members m = .object x ∧ x.record = m.field metadata) ∨
      (metadataCall [] kwds = none ∧ Metadata.new (itemsOf kwds) = .error .typeError) := by
  by_cases h : Metadata.HasFields (itemsOf kwds)
  · have hnew := allows_some.mp (Metadata.allows_new.mpr ⟨h, rfl⟩)
    refine .inl ⟨_, _, metadataCall_of_hasFields hdistinct h, hnew, fun m => ?_⟩
    obtain ⟨x, hx, -, hrecord⟩ := exists_argument h m
    exact ⟨x, hx, hrecord⟩
  · refine .inr ⟨metadataCall_of_not_hasFields hdistinct h, ?_⟩
    cases hnew : Metadata.new (itemsOf kwds) with
    | error e => rw [new_error _ e hnew]
    | ok metadata => exact absurd (Metadata.allows_new.mp (allows_some.mpr hnew)).1 h

theorem sample_metadata_agrees : metadataCall [] [("node_count", PyObj.int 1)] = none ∧
    Metadata.new [(.str "node_count", .int 1)] = .error .typeError := by
  refine (metadata_agrees [("node_count", .int 1)] (List.nodup_singleton _)).resolve_left ?_
  rintro ⟨s, metadata, h, -⟩
  cases h

/-! ## The metadata of a database -/

/-- `Reader_metadata`, on the entries of the metadata. -/
def readerMetadata (fromEntries : List EntryData → Except PyErr PyObj) (entries : List EntryData) :
    Except PyErr (Option (Option (MetadataObj PyObj))) :=
  match fromEntries entries with
  | .ok (.dict items) => .ok (metadataCall [] items)
  | _ => .error .maxMindDBError

/-- `metadata()` returns an object with the fields of the metadata in Python. -/
def SameMetadata (metadata : Metadata) (result : Except PyErr (Option (Option (MetadataObj PyObj)))) : Prop :=
  ∃ s, result = .ok (some (some s)) ∧ ∀ m, ∃ x, s.members m = .object x ∧ x.record = m.field metadata

section

variable {xs ys : List (String × PyObj)} {f g : UInt32 → ℤ}

theorem keys_setItems (items : List (String × DataTree)) (h : xs.map Prod.fst = ys.map Prod.fst) :
    (setItems f xs items).map Prod.fst = (setItems g ys items).map Prod.fst := by
  induction items generalizing xs ys with
  | nil => exact h
  | cons item items ih =>
    rw [setItems, setItems]
    exact ih (by rw [keys_setItem, keys_setItem, h])

theorem nodup_setItems (items : List (String × DataTree)) (h : (xs.map Prod.fst).Nodup) :
    ((setItems f xs items).map Prod.fst).Nodup := by
  induction items generalizing xs with
  | nil => exact h
  | cons item items ih =>
    rw [setItems]
    exact ih (nodup_setItem h _ _)

theorem eq_of_lookup (hkeys : xs.map Prod.fst = ys.map Prod.fst) (hdistinct : (xs.map Prod.fst).Nodup)
    (h : ∀ key ∈ xs.map Prod.fst, xs.lookup key = ys.lookup key) : xs = ys := by
  induction xs generalizing ys with
  | nil => exact (List.map_eq_nil_iff.mp hkeys.symm).symm
  | cons x xs ih =>
    cases ys with
    | nil => cases hkeys
    | cons y ys =>
      obtain ⟨key, v⟩ := x
      obtain ⟨key', w⟩ := y
      obtain ⟨rfl, hrest⟩ := List.cons.inj hkeys
      obtain ⟨hnot, hdistinct⟩ := List.nodup_cons.mp hdistinct
      have hfirst := h key List.mem_cons_self
      simp only [List.lookup_cons, beq_self_eq_true] at hfirst
      obtain rfl : v = w := Option.some.inj hfirst
      rw [ih hrest hdistinct fun k hk => ?_]
      have hlookup := h k (List.mem_cons_of_mem _ hk)
      have hne : (k == key) = false := by
        simp only [beq_eq_false_iff_ne, ne_eq]
        rintro rfl
        exact hnot hk
      simpa only [List.lookup_cons, hne] using hlookup

end

theorem exists_items {v : DataTree} {db : Parts} (hv : v.record = .dict (dictOf db.metadata)) :
    ∃ items, v = .map items ∧ itemsOf (setItems (fun n => n.toNat) [] items) = dictOf db.metadata := by
  have hobject := v.record_object.trans hv
  cases v with
  | map items => exact ⟨items, rfl, Record.dict.inj hobject⟩
  | _ => cases hv

/-- **When the two readers have one metadata.** -/
theorem sameMetadata_iff (db : Parts) {v : DataTree} {long : CLong}
    {fromEntries : List EntryData → Except PyErr PyObj} (hv : v.record = .dict (dictOf db.metadata))
    (hmakes : Makes long fromEntries v) :
    SameMetadata db.reader.metadata (readerMetadata fromEntries v.flatten) ↔ v.Fits long := by
  obtain ⟨items, rfl, hitems⟩ := exists_items hv
  have hexact : Exact long (.map items) := exact_objectWith (.map items)
  unfold Exact at hexact
  rw [← hexact]
  have hconverted := fromEntries_flatten hmakes
  simp only [DataTree.object, DataTree.objectWith] at hconverted ⊢
  rw [PyObj.dict.injEq]
  have hkeys : (setItems long.ofUint32 [] items).map Prod.fst =
      (setItems (fun n => n.toNat) [] items).map Prod.fst := keys_setItems items rfl
  have hdistinct : ((setItems long.ofUint32 [] items).map Prod.fst).Nodup :=
    nodup_setItems items List.nodup_nil
  generalize setItems long.ofUint32 [] items = kwds at hconverted hkeys hdistinct ⊢
  generalize setItems (fun n => n.toNat) [] items = expected at hitems hkeys ⊢
  obtain ⟨hexpected, hmetadata⟩ := Metadata.allows_new.mp (allows_some.mpr db.metadata_new)
  rw [← hitems] at hexpected
  have hfields : Metadata.HasFields (itemsOf kwds) := by
    rw [hasFields_iff_keys, hkeys]
    exact hasFields_iff_keys.mp hexpected
  have hcall : readerMetadata fromEntries (DataTree.map items).flatten =
      .ok (some (some ⟨argument [] kwds, 10⟩)) := by
    unfold readerMetadata
    rw [hconverted]
    exact congrArg Except.ok (metadataCall_of_hasFields hdistinct hfields)
  -- each member has the value that is found under its name
  have hmember : ∀ m : Member, (∃ x, argument [] kwds m = .object x ∧
      x.record = m.field db.reader.metadata) ↔ kwds.lookup m.name = expected.lookup m.name := by
    intro m
    obtain ⟨x, hx, hlookup, -⟩ := exists_argument hfields m
    obtain ⟨y, -, hlookup', hrecord⟩ := exists_argument hexpected m
    have hfield : m.field db.reader.metadata = y.record := by
      rw [hrecord, hitems]
      exact congrArg m.field (Option.some.inj hmetadata)
    rw [hx, hlookup, hlookup', hfield, Option.some.injEq]
    refine ⟨fun ⟨z, hz, hzy⟩ => ?_, fun heq => ⟨x, rfl, heq ▸ rfl⟩⟩
    cases hz
    exact PyObj.record_inj hzy
  have hsame : SameMetadata db.reader.metadata (readerMetadata fromEntries (DataTree.map items).flatten) ↔
      ∀ m : Member, kwds.lookup m.name = expected.lookup m.name := by
    rw [← forall_congr' hmember]
    refine ⟨fun ⟨s, hs, hall⟩ => ?_, fun hall => ⟨_, hcall, hall⟩⟩
    rw [hcall] at hs
    cases hs
    exact hall
  rw [hsame]
  refine ⟨fun hall => eq_of_lookup hkeys hdistinct fun key hkey => ?_, fun heq m => by rw [heq]⟩
  obtain ⟨m, rfl⟩ := (hasFields_iff_keys.mp hfields).1 key hkey
  exact hall m

/-- The metadata of the samples. -/
def sampleMetadata : DataTree :=
  .map [("binary_format_major_version", .uint16 2), ("binary_format_minor_version", .uint16 0),
    ("build_epoch", .uint16 0), ("database_type", .utf8String "Test"), ("description", .map []),
    ("ip_version", .uint16 6), ("languages", .array []), ("node_count", .uint16 1),
    ("record_size", .uint16 24)]

theorem sample_sameMetadata : SameMetadata (Sample.database false).reader.metadata
    (readerMetadata (fun _ => .ok (sampleMetadata.objectWith CLong.bits32.ofUint32))
      sampleMetadata.flatten) := by
  have hrecord : sampleMetadata.record = .dict (dictOf (Sample.database false).metadata) := rfl
  refine (sameMetadata_iff (Sample.database false).toParts hrecord (makes_objectWith .bits32 _)).mpr ?_
  simp [sampleMetadata, DataTree.Fits, FitItems, FitAll]

end MaxMindDB.Extension
