import CanonicalAbi.Proofs.Writing

/-!
# The generator writes typed code

Each function of the generator writes the code of the same name, for every backend that answers and
every passable shape.
-/

namespace CanonicalAbi

open List

variable {s : Shape} {slots : List CoreType} {offsets : List UInt32}

namespace Gen

variable {σ ω : Type} {b : Backend σ ω} {c : Contract} {item : Item} {p : Scene ω}

/-! ## Memory and slots -/

section Memory

variable {r ra : Reg} {x a : ω} {rs : List Reg} {xs : List ω}

theorem store_writes {op : StoreOp} (offset : UInt32) {t : CoreType} (hop : op.coreType = t)
    (hr : p.Has r x (.core t)) (ha : p.Has ra a (.core .i32)) :
    Writes b c item p [x] (store b op a offset) (Code.store op r ra offset) .nothing := by
  subst hop
  exact .silent (Silent.push [x] a) (.emitNone (.store op offset) (.cons hr (.one ha)))

theorem load_writes {op : LoadOp} (offset : UInt32) {t : CoreType} (hop : op.coreType = t)
    (ha : p.Has ra a (.core .i32)) :
    Writes b c item p [] (load b op a offset) (Code.load op ra offset) (.one (.core t)) := by
  subst hop
  exact .silent (Silent.push [] a) (.emitPush (.load op offset) (.one ha))

def pairTypes : List OperandType := [.core .i32, .core .i32]

theorem storePair_writes (offset : UInt32) (hpair : p.HasAll rs xs pairTypes)
    (ha : p.Has ra a (.core .i32)) :
    Writes b c item p xs (storePair b a offset) (Code.storePair rs ra offset) .nothing := by
  obtain ⟨rp, _, ptr, _, rfl, rfl, hp, hrest⟩ := hpair.of_cons
  obtain ⟨rl, length, rfl, rfl, hl⟩ := hrest.of_one
  refine (store_writes (offset + 4) rfl hl ha).bind [ptr] <| .nothing fun q hq => ?_
  exact store_writes offset rfl (hp.mono hq) (ha.mono hq)

theorem loadPair_writes (offset : UInt32) (ha : p.Has ra a (.core .i32)) :
    Writes b c item p [] (loadPair b a offset) (Code.loadPair ra offset) (.all pairTypes) := by
  refine (load_writes offset rfl ha).bind [] <| .one fun q1 r1 ptr hq1 hptr => ?_
  exact (load_writes (offset + 4) rfl (ha.mono hq1)).lastAll [ptr] <| .one
    fun q2 r2 length hq2 hlength => .cons (hptr.mono hq2) (.one hlength)

theorem castSlots_writes {source target : List CoreType}
    (hcasts : Bitcast.pairwise source target = .ok (castsBetween source target))
    (hconverts : Bitcast.ConvertsAll (castsBetween source target) source slots)
    (hrs : p.HasAll rs xs (source.map .core)) :
    Writes b c item p xs (castSlots b source target) (Code.castSlots source target rs)
      (.all (slots.map .core)) := by
  refine .silent (Silent.ofExcept xs hcasts) ?_
  simp only [Code.castSlots]
  split
  · exact .emit (.bitcasts hconverts) hrs
  · next hnone =>
    have hall : ∀ cast ∈ castsBetween source target, cast = .none := by simpa using hnone
    obtain rfl := hconverts.eq_of_none hall
    exact .pure hrs.typed hrs.named

end Memory

/-! ## Lowering -/

section Lower

variable (realloc : String) {r ra : Reg} {x a : ω} {rs : List Reg} {xs : List ω}

theorem padZeros_writes (types : List CoreType) :
    Writes b c item p [] (padZeros b types) (Code.padZeros types) (.all (types.map .core)) := by
  simp only [padZeros, Code.padZeros]
  split
  · next h =>
    obtain rfl := isEmpty_iff.mp h
    exact .pure .nil .nil
  · exact .emit (.constZero types) .nil

theorem lowerList_writes (l : Label) (elem : Option Shape) {write : ω → Gen σ ω Unit}
    {writeCode : Reg → Reg → Code Unit} (hr : p.Has r x (.source (some (.list l elem))))
    (hwrite : ∀ (q : Scene ω) rv v ra a, q.Has rv v (.of elem) → q.Has ra a (.core .i32) →
      Writes b c (.element elem) q [v] (write a) (writeCode rv ra) .nothing) :
    Writes b c item p [x] (lowerList b realloc l elem write)
      (Code.lowerList b.movesRaw realloc l elem writeCode r) (.all pairTypes) := by
  simp only [lowerList, Code.lowerList]
  split
  · exact .emit (.lowerBytes l elem realloc) (.one hr)
  · refine .ownBlock (.lowerList l elem realloc) rfl ?_ (.one hr)
    refine (Writes.emitPush (.iterElem rfl) .nil).bind [] <| .one fun q1 rv v hq1 hv => ?_
    refine (Writes.emitOne (.iterBase (.inr ⟨elem, rfl⟩)) .nil).bind [v] <| .taken
      fun q2 ra a hq2 ha => ?_
    exact (hwrite q2 rv v ra a (hv.mono hq2) ha).none

theorem storeLanes_writes (offset : UInt32) {n : Nat}
    (hrs : p.HasAll rs xs (replicate n (.core .i32))) (ha : p.Has ra a (.core .i32)) :
    Writes b c item p [] (storeLanes b a offset xs) (Code.storeLanes ra offset rs) .nothing := by
  induction n generalizing p rs xs offset with
  | zero =>
    obtain ⟨rfl, rfl⟩ := hrs.of_nil
    exact .pure trivial rfl
  | succ n ih =>
    obtain ⟨r, rs, x, xs, rfl, rfl, hr, hrest⟩ := hrs.of_cons
    refine .silent (Silent.push [] x) ?_
    refine (store_writes offset rfl hr ha).bind [] <| .nothing fun q hq => ?_
    exact ih (offset + 4) (hrest.mono hq) (ha.mono hq)

theorem storeFlags_writes (count : Nat) (offset : UInt32)
    (hrs : p.HasAll rs xs (replicate (FlagsStorage.ofCount count).lanes (.core .i32)))
    (ha : p.Has ra a (.core .i32)) :
    Writes b c item p xs (storeFlags b count a offset) (Code.storeFlags count rs ra offset)
      .nothing := by
  simp only [storeFlags, Code.storeFlags]
  split
  · have hlen := hrs.length_eq
    rw [length_replicate] at hlen
    exact .silent (Silent.popN [] xs hlen) (storeLanes_writes offset hrs ha)
  · next hunit =>
    rw [lanes_eq_one hunit] at hrs
    obtain ⟨r, x, rfl, rfl, hr⟩ := hrs.of_one
    exact store_writes offset (IntWidth.storeOp_coreType _) hr ha

/-- The generator lowers and stores as the code does. -/
structure LowerWrites (b : Backend σ ω) (realloc : String) (s : Shape) : Prop where
  lower : ∀ {c item} {p : Scene ω} {r x}, p.Has r x (.of (some s)) →
    Writes b c item p [x] (lower b realloc s) (Code.lower b.movesRaw realloc s r)
      (.all (s.slots.map .core))
  write : ∀ {c item} {p : Scene ω} {r x ra a} (offset : UInt32), p.Has r x (.of (some s)) →
    p.Has ra a (.core .i32) →
    Writes b c item p [x] (write b realloc s a offset) (Code.write b.movesRaw realloc s r ra offset)
      .nothing

section Parts

variable {part : Option Shape} {parts : Parts}

section

variable (hs : ∀ s, part = some s → s.Passable → LowerWrites b realloc s) (hp : Passable? part)
include hs hp

theorem lower?_of_parts (hr : p.Has r x (.of part)) :
    Writes b c item p [x] (lower? b realloc part) (Code.lower? b.movesRaw realloc part r)
      (.all ((slots? part).map .core)) := by
  cases part with
  | none => exact absurd hp (by simp [Passable?])
  | some s => exact (hs s rfl hp).lower hr

theorem write?_of_parts (offset : UInt32) (hr : p.Has r x (.of part))
    (ha : p.Has ra a (.core .i32)) :
    Writes b c item p [x] (write? b realloc part a offset)
      (Code.write? b.movesRaw realloc part r ra offset) .nothing := by
  cases part with
  | none => exact absurd hp (by simp [Passable?])
  | some s => exact (hs s rfl hp).write offset hr ha

end

section

variable (hs : ∀ s, some s ∈ parts → s.Passable → LowerWrites b realloc s)
include hs

theorem lowerFields_of_parts (hp : FieldsPassable parts) (hrs : p.HasAll rs xs (parts.map .of)) :
    Writes b c item p [] (lowerFields b realloc parts xs)
      (Code.lowerFields b.movesRaw realloc parts rs) (.all ((fieldSlots parts).map .core)) := by
  induction parts generalizing p rs xs with
  | nil =>
    obtain ⟨rfl, rfl⟩ := hrs.of_nil
    exact .pure .nil .nil
  | cons part parts ih =>
    obtain ⟨r, rs, x, xs, rfl, rfl, hr, hrest⟩ := hrs.of_cons
    refine .silent (Silent.push [] x) ?_
    refine (lower?_of_parts realloc (head_part hs) hp.1 hr).bind [] <| .all
      fun q1 first flat hq1 hfirst => ?_
    refine (ih (tail_parts hs) hp.2 (hrest.mono hq1)).above flat <| .all
      fun q2 others outs hq2 hothers => ?_
    rw [fieldSlots, map_append]
    exact (hfirst.mono hq2).append hothers

theorem writeFields_of_parts (hp : FieldsPassable parts) (offset : UInt32)
    (hrs : p.HasAll rs xs (parts.map .of)) (ha : p.Has ra a (.core .i32)) :
    Writes b c item p [] (writeFields b realloc parts xs offsets a offset)
      (Code.writeFields b.movesRaw realloc parts rs offsets ra offset) .nothing := by
  induction parts generalizing p rs xs offsets with
  | nil =>
    obtain ⟨rfl, rfl⟩ := hrs.of_nil
    exact .pure trivial rfl
  | cons part parts ih =>
    obtain ⟨r, rs, x, xs, rfl, rfl, hr, hrest⟩ := hrs.of_cons
    cases offsets with
    | nil => exact .pure trivial rfl
    | cons o offsets =>
      refine .silent (Silent.push [] x) ?_
      refine (write?_of_parts realloc (head_part hs) hp.1 (offset + o) hr ha).bind [] <| .nothing
        fun q hq => ?_
      exact ih (tail_parts hs) hp.2 (hrest.mono hq) (ha.mono hq)

theorem lowerCases_of_parts (hp : PayloadsPassable parts)
    (hfit : ∀ s, some s ∈ parts → FitSlots s.slots slots) (index : Nat) :
    WritesBlocks b c p (parts.map fun p => ⟨.payload p, (CoreType.i32 :: slots).map .core⟩)
      (lowerCases b realloc slots index parts)
      (Code.lowerCases b.movesRaw realloc slots index parts) := by
  induction parts generalizing p index with
  | nil => exact .none
  | cons part parts ih =>
    cases part with
    | none =>
      refine .cons (by simp) ?_ fun q _ => ih (tail_parts hs) hp (tail_parts hfit) (index + 1)
      refine (Writes.emitOne (.payload rfl) .nil).bind [] <| .taken fun q1 _ _ _ _ => ?_
      refine (Writes.emitPush (.i32Const _) .nil).bind [] <| .one fun q2 _ tag _ htag => ?_
      exact (padZeros_writes slots).lastAll [tag] <| .all fun q3 zeros _ hq3 hzeros =>
        .cons (htag.mono hq3) hzeros
    | some s =>
      refine .cons (by simp) ?_ fun q _ => ih (tail_parts hs) hp.2 (tail_parts hfit) (index + 1)
      have hfits := hfit s mem_cons_self
      refine (Writes.emitOne (.payload rfl) .nil).bind [] <| .taken fun q1 _ value _ hvalue => ?_
      refine (Writes.emitPush (.i32Const _) .nil).bind [] <| .one fun q2 _ tag hq2 htag => ?_
      refine .silent (Silent.push [tag] value) ?_
      refine ((hs s mem_cons_self hp.1).lower (hvalue.mono hq2)).bind [tag] <| .all
        fun q3 flat _ hq3 hflat => ?_
      refine .silent (Silent.ofExcept _ (Shape.flat_eq hp.1)) ?_
      refine (castSlots_writes (pairwise_up hfits) (Bitcast.convertsAll_up hfits) hflat).bind [tag]
        <| .all fun q4 cast xs hq4 hcast => ?_
      refine (padZeros_writes _).above ([tag] ++ xs) <| .all fun q5 zeros _ hq5 hzeros => ?_
      have hboth := (hcast.mono hq5).append hzeros
      rw [← map_append, take_append_drop] at hboth
      exact .cons (htag.mono (hq3.trans (hq4.trans hq5))) hboth

end

theorem writeCases_of_parts (tag : IntWidth) (offset start : UInt32)
    (hs : ∀ s, some s ∈ parts → s.Passable → LowerWrites b realloc s)
    (hp : PayloadsPassable parts) (index : Nat) (ha : p.Has ra a (.core .i32)) :
    WritesBlocks b c p (parts.map fun p => ⟨.payload p, []⟩)
      (writeCases b realloc tag a offset start index parts)
      (Code.writeCases b.movesRaw realloc tag ra offset start index parts) := by
  induction parts generalizing p index with
  | nil => exact .none
  | cons part parts ih =>
    cases part with
    | none =>
      refine .cons rfl ?_ fun q hq => ih (tail_parts hs) hp (index + 1) (ha.mono hq)
      refine (Writes.emitOne (.payload rfl) .nil).bind [] <| .taken fun q1 _ _ hq1 _ => ?_
      refine (Writes.emitPush (.i32Const _) .nil).bind [] <| .one fun q2 _ number hq2 hnumber => ?_
      exact (store_writes offset (IntWidth.storeOp_coreType tag) hnumber
        (ha.mono (hq1.trans hq2))).none
    | some s =>
      refine .cons rfl ?_ fun q hq => ih (tail_parts hs) hp.2 (index + 1) (ha.mono hq)
      refine (Writes.emitOne (.payload rfl) .nil).bind [] <| .taken fun q1 _ value hq1 hvalue => ?_
      refine (Writes.emitPush (.i32Const _) .nil).bind [] <| .one fun q2 _ number hq2 hnumber => ?_
      have ha2 := ha.mono (hq1.trans hq2)
      refine (store_writes offset (IntWidth.storeOp_coreType tag) hnumber ha2).bind [] <| .nothing
        fun q3 hq3 => ?_
      refine .silent (Silent.push [] value) ?_
      exact ((hs s mem_cons_self hp.1).write start (hvalue.mono (hq2.trans hq3))
        (ha2.mono hq3)).none

end Parts

theorem lowerWrites (h : s.Passable) : LowerWrites b realloc s := by
  induction s with
  | scalar s =>
    refine ⟨fun hr => .emit (.lowerScalar s) (.one hr), fun offset hr ha => ?_⟩
    refine (Writes.emitPush (.lowerScalar s) (.one hr)).bind [] <| .one fun q _ _ hq hv => ?_
    exact store_writes offset (Scalar.storeOp_coreType s) hv (ha.mono hq)
  | string =>
    refine ⟨fun hr => .emit (.lowerString realloc) (.one hr), fun offset hr ha => ?_⟩
    refine (Writes.emit (.lowerString realloc) (.one hr)).bind [] <| .all fun q _ _ hq hpair => ?_
    exact storePair_writes offset hpair (ha.mono hq)
  | product l form fields ih =>
    have hlen : ∀ {p : Scene ω} {rs xs}, p.HasAll rs xs (fields.map .of) →
        xs.length = fields.length := fun h => h.length_eq.trans (length_map _)
    refine ⟨fun hr => ?_, fun offset hr ha => ?_⟩
    · refine (Writes.emit (.lowerProduct form l fields) (.one hr)).bind [] <| .all
        fun q _ values _ hvalues => ?_
      refine .silent (Silent.popN [] values (hlen hvalues)) ?_
      exact lowerFields_of_parts realloc ih h hvalues
    · refine (Writes.emit (.lowerProduct form l fields) (.one hr)).bind [] <| .all
        fun q _ values hq hvalues => ?_
      refine .silent (Silent.ofExcept values (fieldOffsets_eq h)) ?_
      refine .silent (Silent.popN [] values (hlen hvalues)) ?_
      exact writeFields_of_parts realloc ih h offset hvalues (ha.mono hq)
  | sum l form payloads ih =>
    refine ⟨fun hr => ?_, fun offset hr ha => ?_⟩
    · refine .silent (Silent.ofExcept [_] (flatPayloads_eq h)) ?_
      exact .own (lowerCases_of_parts realloc ih h (fun _ m => FitSlots.of_mem m) 0)
        (.lowerSum form l payloads _) (.emit _ _) (.one hr)
    · refine .silent (Silent.ofExcept [_] (payloadOffset_eq h)) ?_
      exact .ownNone (writeCases_of_parts realloc (tagWidth payloads.length) offset
        (offset + placedPayload payloads) ih h 0 ha) (.lowerSum form l payloads []) (.emit _ _)
        (.one hr)
  | enum l cases =>
    refine ⟨fun hr => .emit (.lowerEnum l cases) (.one hr), fun offset hr ha => ?_⟩
    refine (Writes.emitPush (.lowerEnum l cases) (.one hr)).bind [] <| .one fun q _ _ hq hv => ?_
    exact store_writes offset (IntWidth.storeOp_coreType _) hv (ha.mono hq)
  | flags l count =>
    refine ⟨fun hr => ?_, fun offset hr ha => ?_⟩
    · rw [Shape.slots, map_replicate]
      exact .emit (.lowerFlags l count) (.one hr)
    · refine (Writes.emit (.lowerFlags l count) (.one hr)).bind [] <| .all
        fun q _ _ hq hlanes => ?_
      exact storeFlags_writes count offset hlanes (ha.mono hq)
  | list l elem ih =>
    have hlist : ∀ {c item} {p : Scene ω} {r x}, p.Has r x (.of (some (.list l elem))) →
        Writes b c item p [x] (lowerList b realloc l elem fun addr => write? b realloc elem addr 0)
          (Code.lowerList b.movesRaw realloc l elem
            (fun value addr => Code.write? b.movesRaw realloc elem value addr 0) r)
          (.all pairTypes) :=
      fun hr => lowerList_writes realloc l elem hr fun _ _ _ _ _ hv ha =>
        write?_of_parts realloc ih h 0 hv ha
    refine ⟨hlist, fun offset hr ha => ?_⟩
    refine (hlist hr).bind [] <| .all fun q _ _ hq hpair => ?_
    exact storePair_writes offset hpair (ha.mono hq)
  | handle l form resource =>
    refine ⟨fun hr => .emit (.lowerHandle form l resource) (.one hr), fun offset hr ha => ?_⟩
    refine (Writes.emitPush (.lowerHandle form l resource) (.one hr)).bind [] <| .one
      fun q _ _ hq hv => ?_
    exact store_writes offset rfl hv (ha.mono hq)
  | synonym l target ih =>
    exact ⟨fun hr => (lower?_of_parts realloc ih h hr :),
      fun offset hr ha => (write?_of_parts realloc ih h offset hr ha :)⟩
  | channel | resource | unfinished => exact absurd h (by simp [Shape.Passable])

end Lower

/-! ## Lifting -/

section Lift

variable {ra : Reg} {a : ω} {rs : List Reg} {xs : List ω}

theorem liftList_writes (l : Label) (elem : Option Shape) {read : ω → Gen σ ω Unit}
    {readCode : Reg → Code Reg} (hpair : p.HasAll rs xs pairTypes)
    (hread : ∀ (q : Scene ω) ra a, q.Has ra a (.core .i32) →
      Writes b c .address q [] (read a) (readCode ra) (.one (.of elem))) :
    Writes b c item p xs (liftList b l elem read) (Code.liftList b.movesRaw l elem readCode rs)
      (.one (.source (some (.list l elem)))) := by
  simp only [liftList, Code.liftList]
  split
  · exact .emitPush (.liftBytes l elem) hpair
  · have hbody : Writes b c .address p [] (emitOne b .iterBase >>= read)
        (Code.emitOne .iterBase [] >>= fun addr => readCode addr >>= fun value => pure [value])
        (.all [.of elem]) := by
      refine (Writes.emitOne (.iterBase (.inl rfl)) .nil).bind [] <| .taken fun q ra a _ ha => ?_
      exact (hread q ra a ha).lastAll [] <| .one fun _ _ _ _ hv => .one hv
    have hi : Instr.HasType c item (.liftList l elem) _ _ _ := .liftList l elem
    have hown := (Writes.ownBlock hi rfl hbody hpair).only
    rwa [bind_assoc] at hown

theorem loadLanes_writes (offset : UInt32) (lanes : Nat) (ha : p.Has ra a (.core .i32)) :
    Writes b c item p [] (loadLanes b a offset lanes) (Code.loadLanes ra offset lanes)
      (.all (replicate lanes (.core .i32))) := by
  induction lanes generalizing p offset with
  | zero => exact .pure .nil .nil
  | succ lanes ih =>
    refine (load_writes offset rfl ha).bind [] <| .one fun q1 _ lane hq1 hlane => ?_
    exact (ih (offset + 4) (ha.mono hq1)).above [lane] <| .all fun q2 _ _ hq2 hrest =>
      .cons (hlane.mono hq2) hrest

theorem loadFlags_writes (count : Nat) (offset : UInt32) (ha : p.Has ra a (.core .i32)) :
    Writes b c item p [] (loadFlags b count a offset) (Code.loadFlags count ra offset)
      (.all (replicate (FlagsStorage.ofCount count).lanes (.core .i32))) := by
  simp only [loadFlags, Code.loadFlags]
  split
  · exact loadLanes_writes offset _ ha
  · next hunit =>
    rw [lanes_eq_one hunit]
    exact (load_writes offset (IntWidth.loadOp_coreType _) ha).lastAll [] <| .one
      fun _ _ _ _ hlane => .one hlane

/-- The generator lifts and loads as the code does. -/
structure LiftWrites (b : Backend σ ω) (s : Shape) : Prop where
  lift : ∀ {c item} {p : Scene ω} {rs xs}, p.HasAll rs xs (s.slots.map .core) →
    Writes b c item p xs (lift b s) (Code.lift b.movesRaw s rs) (.one (.of (some s)))
  read : ∀ {c item} {p : Scene ω} {ra a} (offset : UInt32), p.Has ra a (.core .i32) →
    Writes b c item p [] (read b s a offset) (Code.read b.movesRaw s ra offset)
      (.one (.of (some s)))

section Parts

variable {part : Option Shape} {parts : Parts}

section

variable (hs : ∀ s, part = some s → s.Passable → LiftWrites b s) (hp : Passable? part)
include hs hp

theorem lift?_of_parts (hrs : p.HasAll rs xs ((slots? part).map .core)) :
    Writes b c item p xs (lift? b part) (Code.lift? b.movesRaw part rs) (.one (.of part)) := by
  cases part with
  | none => exact absurd hp (by simp [Passable?])
  | some s => exact (hs s rfl hp).lift hrs

theorem read?_of_parts (offset : UInt32) (ha : p.Has ra a (.core .i32)) :
    Writes b c item p [] (read? b part a offset) (Code.read? b.movesRaw part ra offset)
      (.one (.of part)) := by
  cases part with
  | none => exact absurd hp (by simp [Passable?])
  | some s => exact (hs s rfl hp).read offset ha

end

section

variable (hs : ∀ s, some s ∈ parts → s.Passable → LiftWrites b s)
include hs

theorem liftFields_of_parts (hp : FieldsPassable parts)
    (hrs : p.HasAll rs xs ((fieldSlots parts).map .core)) :
    Writes b c item p [] (liftFields b parts xs) (Code.liftFields b.movesRaw parts rs)
      (.all (parts.map .of)) := by
  induction parts generalizing p rs xs with
  | nil => exact .pure .nil .nil
  | cons part parts ih =>
    rw [fieldSlots, map_append] at hrs
    have htake := hrs.take (slots? part).length
    have hdrop := hrs.drop (slots? part).length
    rw [take_left' (length_map _)] at htake
    rw [drop_left' (length_map _)] at hdrop
    refine .silent (Silent.ofExcept [] (flat?_eq hp.1)) ?_
    refine .silent (Silent.pushAll [] (xs.take (slots? part).length)) ?_
    refine (lift?_of_parts (head_part hs) hp.1 htake).bind [] <| .one fun q1 _ v hq1 hv => ?_
    exact (ih (tail_parts hs) hp.2 (hdrop.mono hq1)).above [v] <| .all fun q2 _ _ hq2 hrest =>
      .cons (hv.mono hq2) hrest

theorem readFields_of_parts (hp : FieldsPassable parts) (offset : UInt32)
    (hoffsets : offsets.length = parts.length) (ha : p.Has ra a (.core .i32)) :
    Writes b c item p [] (readFields b parts offsets a offset)
      (Code.readFields b.movesRaw parts offsets ra offset) (.all (parts.map .of)) := by
  induction parts generalizing p offsets with
  | nil => exact .pure .nil .nil
  | cons part parts ih =>
    obtain ⟨o, offsets, rfl⟩ := exists_cons_of_length_eq_add_one hoffsets
    refine (read?_of_parts (head_part hs) hp.1 (offset + o) ha).bind [] <| .one
      fun q1 _ v hq1 hv => ?_
    exact (ih (tail_parts hs) hp.2 (Nat.succ.inj hoffsets) (ha.mono hq1)).above [v] <| .all
      fun q2 _ _ hq2 hrest => .cons (hv.mono hq2) hrest

theorem liftCases_of_parts (hp : PayloadsPassable parts)
    (hfit : ∀ s, some s ∈ parts → FitSlots s.slots slots) (hrs : p.HasAll rs xs (slots.map .core)) :
    WritesBlocks b c p (parts.map fun p => ⟨.nothing, p.toList.map fun s => .of (some s)⟩)
      (liftCases b slots xs parts) (Code.liftCases b.movesRaw slots rs parts) := by
  induction parts generalizing p with
  | nil => exact .none
  | cons part parts ih =>
    cases part with
    | none =>
      exact .cons rfl (.pure .nil .nil) fun q hq =>
        ih (tail_parts hs) hp (tail_parts hfit) (hrs.mono hq)
    | some s =>
      refine .cons rfl ?_ fun q hq => ih (tail_parts hs) hp.2 (tail_parts hfit) (hrs.mono hq)
      have hfits := hfit s mem_cons_self
      have htake := hrs.take s.slots.length
      rw [← map_take] at htake
      refine .silent (Silent.ofExcept [] (Shape.flat_eq hp.1)) ?_
      refine .silent (Silent.pushAll [] (xs.take s.slots.length)) ?_
      refine (castSlots_writes (pairwise_down hfits) (Bitcast.convertsAll_down hfits) htake).bind []
        <| .all fun q1 _ _ _ hflat => ?_
      exact ((hs s mem_cons_self hp.1).lift hflat).lastAll [] <| .one fun _ _ _ _ hv => .one hv

end

theorem readCases_of_parts (start : UInt32)
    (hs : ∀ s, some s ∈ parts → s.Passable → LiftWrites b s) (hp : PayloadsPassable parts)
    (ha : p.Has ra a (.core .i32)) :
    WritesBlocks b c p (parts.map fun p => ⟨.nothing, p.toList.map fun s => .of (some s)⟩)
      (readCases b a start parts) (Code.readCases b.movesRaw ra start parts) := by
  induction parts generalizing p with
  | nil => exact .none
  | cons part parts ih =>
    cases part with
    | none =>
      exact .cons rfl (.pure .nil .nil) fun q hq => ih (tail_parts hs) hp (ha.mono hq)
    | some s =>
      refine .cons rfl ?_ fun q hq => ih (tail_parts hs) hp.2 (ha.mono hq)
      exact ((hs s mem_cons_self hp.1).read start ha).lastAll [] <| .one
        fun _ _ _ _ hv => .one hv

end Parts

theorem liftWrites (h : s.Passable) : LiftWrites b s := by
  induction s with
  | scalar s =>
    refine ⟨fun hrs => .emitPush (.liftScalar s) hrs, fun offset ha => ?_⟩
    refine (load_writes offset (Scalar.loadOp_coreType s) ha).bind [] <| .one fun q _ _ _ hv => ?_
    exact .emitPush (.liftScalar s) (.one hv)
  | string =>
    refine ⟨fun hrs => .emitPush .liftString hrs, fun offset ha => ?_⟩
    refine (loadPair_writes offset ha).bind [] <| .all fun q _ _ _ hpair => ?_
    exact .emitPush .liftString hpair
  | product l form fields ih =>
    refine ⟨fun {_ _ _ rs xs} hrs => ?_, fun offset ha => ?_⟩
    · refine .silent (Silent.ofExcept xs (flatFields_eq h)) ?_
      refine .silent (Silent.popN [] xs (hrs.length_eq.trans (length_map _))) ?_
      refine (liftFields_of_parts ih h hrs).bind [] <| .all fun q _ _ _ hvalues => ?_
      exact .emitPush (.liftProduct form l fields) hvalues
    · refine .silent (Silent.ofExcept [] (fieldOffsets_eq h)) ?_
      refine (readFields_of_parts ih h offset (length_placedOffsets fields) ha).bind [] <| .all
        fun q _ _ _ hvalues => ?_
      exact .emitPush (.liftProduct form l fields) hvalues
  | sum l form payloads ih =>
    refine ⟨fun {_ _ _ rs xs} hrs => ?_, fun offset ha => ?_⟩
    · refine .silent (Silent.ofExcept xs (flatPayloads_eq h)) ?_
      refine .silent (Silent.popN [] xs (hrs.length_eq.trans (length_map _))) ?_
      obtain ⟨r, rest, tag, values, rfl, rfl, hr, hrest⟩ := hrs.of_cons
      exact .ownOne (liftCases_of_parts ih h (fun _ m => FitSlots.of_mem m) hrest)
        (.liftSum form l payloads) (.push (.emit _ [tag])) (.one hr)
    · refine .silent (Silent.ofExcept [] (payloadOffset_eq h)) ?_
      refine (load_writes offset (IntWidth.loadOp_coreType _) ha).bind [] <| .one
        fun q _ _ hq htag => ?_
      exact .ownOne (readCases_of_parts (offset + placedPayload payloads) ih h (ha.mono hq))
        (.liftSum form l payloads) (.emit _ _) (.one htag)
  | enum l cases =>
    refine ⟨fun hrs => .emitPush (.liftEnum l cases) hrs, fun offset ha => ?_⟩
    refine (load_writes offset (IntWidth.loadOp_coreType _) ha).bind [] <| .one
      fun q _ _ _ hv => ?_
    exact .emitPush (.liftEnum l cases) (.one hv)
  | flags l count =>
    refine ⟨fun hrs => ?_, fun offset ha => ?_⟩
    · rw [Shape.slots, map_replicate] at hrs
      exact .emitPush (.liftFlags l count) hrs
    · refine (loadFlags_writes count offset ha).bind [] <| .all fun q _ _ _ hlanes => ?_
      exact .emitPush (.liftFlags l count) hlanes
  | list l elem ih =>
    have hlist : ∀ {c item} {p : Scene ω} {rs xs}, p.HasAll rs xs pairTypes →
        Writes b c item p xs (liftList b l elem fun addr => read? b elem addr 0)
          (Code.liftList b.movesRaw l elem (fun addr => Code.read? b.movesRaw elem addr 0) rs)
          (.one (.of (some (.list l elem)))) :=
      fun hrs => liftList_writes l elem hrs fun _ _ _ ha => read?_of_parts ih h 0 ha
    refine ⟨hlist, fun offset ha => ?_⟩
    exact (loadPair_writes offset ha).bind [] <| .all fun q _ _ _ hpair => hlist hpair
  | handle l form resource =>
    refine ⟨fun hrs => .emitPush (.liftHandle form l resource) hrs, fun offset ha => ?_⟩
    refine (load_writes offset rfl ha).bind [] <| .one fun q _ _ _ hv => ?_
    exact .emitPush (.liftHandle form l resource) (.one hv)
  | synonym l target ih => exact ⟨lift?_of_parts ih h, read?_of_parts ih h⟩
  | channel | resource | unfinished => exact absurd h (by simp [Shape.Passable])

end Lift

/-! ## Freeing -/

section Free

variable {ra : Reg} {a : ω}

/-- What freeing owes to a shape, as the hypothesis of its parts. -/
def FreeWrites (b : Backend σ ω) (s : Shape) : Prop :=
  ∀ {c item} {p : Scene ω} {ra a} (offset : UInt32), p.Has ra a (.core .i32) →
    Writes b c item p [] (free b s a offset) (Code.free s ra offset) .nothing

variable {part : Option Shape} {parts : Parts}

theorem passable_of_part (h : Passable? part) (e : part = some s) : s.Passable := by
  subst e
  exact h

theorem free?_of_parts (hs : ∀ s, part = some s → s.Passable → FreeWrites b s)
    (hp : ∀ s, part = some s → s.Passable) (offset : UInt32) (ha : p.Has ra a (.core .i32)) :
    Writes b c item p [] (free? b part a offset) (Code.free? part ra offset) .nothing := by
  cases part with
  | none => exact .pure trivial rfl
  | some s => exact hs s rfl (hp s rfl) offset ha

theorem freeFields_of_parts (hs : ∀ s, some s ∈ parts → s.Passable → FreeWrites b s)
    (hp : FieldsPassable parts) (offset : UInt32) (ha : p.Has ra a (.core .i32)) :
    Writes b c item p [] (freeFields b parts offsets a offset)
      (Code.freeFields parts offsets ra offset) .nothing := by
  induction parts generalizing p offsets with
  | nil => exact .pure trivial rfl
  | cons part parts ih =>
    cases offsets with
    | nil => exact .pure trivial rfl
    | cons o offsets =>
      simp only [freeFields, Code.freeFields]
      split
      · refine (free?_of_parts (head_part hs) (fun s e => ?_) (offset + o) ha).bind [] <| .nothing
          fun q hq => ih (tail_parts hs) hp.2 (ha.mono hq)
        exact passable_of_part hp.1 e
      · exact ih (tail_parts hs) hp.2 ha

theorem freeCases_of_parts (start : UInt32)
    (hs : ∀ s, some s ∈ parts → s.Passable → FreeWrites b s)
    (hp : ∀ s, some s ∈ parts → s.Passable) (ha : p.Has ra a (.core .i32)) :
    WritesBlocks b c p (replicate parts.length ⟨.nothing, []⟩) (freeCases b a start parts)
      (Code.freeCases ra start parts) := by
  induction parts generalizing p with
  | nil => exact .none
  | cons part parts ih =>
    refine .cons rfl ?_ fun q hq => ih (tail_parts hs) (tail_parts hp) (ha.mono hq)
    split
    · exact (free?_of_parts (head_part hs) (head_part hp) start ha).none
    · exact .pure .nil .nil

theorem freeWrites (h : s.Passable) : FreeWrites b s := by
  induction s with
  | scalar | enum | flags | handle => exact fun _ _ => .pure trivial rfl
  | string =>
    intro c item p ra a offset ha
    refine (loadPair_writes offset ha).bind [] <| .all fun q _ _ _ hpair => ?_
    exact .emitNone .freeString hpair
  | product l form fields ih =>
    intro c item p ra a offset ha
    refine .silent (Silent.ofExcept [] (fieldOffsets_eq h)) ?_
    exact freeFields_of_parts ih h offset ha
  | sum l form payloads ih =>
    intro c item p ra a offset ha
    simp only [free, Code.free]
    split
    · refine .silent (Silent.ofExcept [] (payloadOffset_eq h)) ?_
      refine (load_writes offset (IntWidth.loadOp_coreType _) ha).bind [] <| .one
        fun q _ _ hq htag => ?_
      exact .ownNone (freeCases_of_parts (offset + placedPayload payloads) ih
        (payloadsPassable_iff.mp h) (ha.mono hq)) (.freeSum l payloads.length) (.emit _ _)
        (.one htag)
    · exact .pure trivial rfl
  | list l elem ih =>
    intro c item p ra a offset ha
    refine (loadPair_writes offset ha).bind [] <| .all fun q _ _ _ hpair => ?_
    have hbody : Writes b c .address q []
        (if ownsMemory? elem then emitOne b .iterBase >>= fun base => free? b elem base 0
          else pure ())
        (do
          if ownsMemory? elem then
            let base ← Code.emitOne .iterBase []
            Code.free? elem base 0
          return []) (.all []) := by
      split
      · refine (Writes.emitOne (.iterBase (.inl rfl)) .nil).bind [] <| .taken
          fun q ra a _ ha => ?_
        exact (free?_of_parts ih (fun s e => passable_of_part h e) 0 ha).none
      · exact .pure .nil .nil
    have hi : Instr.HasType c item (.freeList l elem) _ _ _ := .freeList l elem
    have hown := (Writes.ownBlock hi rfl hbody hpair).dropped
    rwa [bind_assoc] at hown
  | synonym l target ih =>
    exact fun offset ha => free?_of_parts ih (fun s e => passable_of_part h e) offset ha
  | channel | resource | unfinished => exact absurd h (by simp [Shape.Passable])

end Free

end Gen

end CanonicalAbi
