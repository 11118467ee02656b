/-
Packing into a buffer and unpacking from it.

`Wrote` says of a call that it has appended its bytes, or has failed with
the first of them appended. It is kept by the calls of an object
(`packObject_wrote`), so that what `msgpack_pack_object` leaves in a buffer
is known also where the memory runs out.

# A call that fails

The callback is asked for all or nothing: it appends the bytes that it is
given, or fails and leaves what was written before. Objects are packed by
several calls, so what is in the buffer after a failure is a front of the
bytes of the object, and `Wrote` is closed under making one call after
another. The simple buffer is such a callback, whichever requests for
memory fail, and its bytes stay within its memory in every run.

The round trip joins this with the bytes of Pack and with what unpacking
makes of them. Objects that are read back are compared with
`msgpack_object_equal`, which goes through containers item by item; with
floating-point numbers it says what C says of them, which is not equality
of bits.
-/
import ProjectsLibs.Msgpack.Proofs.Next
import ProjectsLibs.Msgpack.Proofs.Pack

namespace ProjectsLibs.Msgpack

open Lib

-- ============================================================ the writes

section Writes

variable {σ : Type} {content : σ → List UInt8} {write : PackerWrite σ}
  {s : σ} {a b : List UInt8} {r : Int × σ}

/-- A call that has appended `bytes`, or failed. -/
def Wrote (content : σ → List UInt8) (s : σ) (bytes : List UInt8)
    (r : Int × σ) : Prop :=
  (r.1 = 0 ∧ content r.2 = content s ++ bytes)
    ∨ (r.1 < 0 ∧ ∃ p, p <+: bytes ∧ content r.2 = content s ++ p)

/-- A packer whose callback appends all or nothing. -/
def Appends (content : σ → List UInt8) (write : PackerWrite σ) : Prop :=
  ∀ s bytes, ((write s bytes).1 = 0
      ∧ content (write s bytes).2 = content s ++ bytes)
    ∨ ((write s bytes).1 < 0 ∧ content (write s bytes).2 = content s)

/-- A callback that appends has written the bytes. -/
theorem Appends.wrote (h : Appends content write) (s : σ)
    (bytes : List UInt8) : Wrote content s bytes (write s bytes) := by
  rcases h s bytes with hdone | ⟨hfail, hsame⟩
  · exact .inl hdone
  · exact .inr ⟨hfail, [], List.nil_prefix, by rw [hsame, List.append_nil]⟩

theorem Wrote.andThen {next : σ → Int × σ} (h : Wrote content s a r)
    (hnext : ∀ s', content s' = content s ++ a →
      Wrote content s' b (next s')) :
    Wrote content s (a ++ b) (andThen r next) := by
  unfold Msgpack.andThen
  rcases h with ⟨hzero, hsame⟩ | ⟨hfail, p, hp, hsame⟩
  · rw [if_neg (by omega)]
    rcases hnext r.2 hsame with ⟨hzero', hsame'⟩ |
      ⟨hfail', p, hp, hsame'⟩
    · refine .inl ⟨hzero', ?_⟩
      rw [hsame', hsame, List.append_assoc]
    · refine .inr ⟨hfail', a ++ p, (List.prefix_append_right_inj a).2 hp,
        ?_⟩
      rw [hsame', hsame, List.append_assoc]
  · rw [if_pos hfail]
    exact .inr ⟨hfail, p, hp.trans (List.prefix_append a b), hsame⟩

/-- The calls for several objects. -/
theorem packItems_wrote {items : List Value}
    (h : ∀ o ∈ items, ∀ s, Wrote content s (encode o)
      (msgpackPackObject write s o)) (s : σ) :
    Wrote content s (encodeItems items) (packItems write s items) := by
  induction items generalizing s with
  | nil => exact .inl ⟨rfl, (List.append_nil _).symm⟩
  | cons o rest ih =>
      rw [List.forall_mem_cons] at h
      rw [packItems, encodeItems]
      exact (h.1 s).andThen fun s' _ => ih h.2 s'

/-- All keys and values are written if each is. -/
theorem packKvs_wrote {kvs : List (Value × Value)}
    (h : ∀ kv ∈ kvs, (∀ s, Wrote content s (encode kv.1)
        (msgpackPackObject write s kv.1))
      ∧ ∀ s, Wrote content s (encode kv.2)
        (msgpackPackObject write s kv.2)) (s : σ) :
    Wrote content s (encodeKvs kvs) (packKvs write s kvs) := by
  induction kvs generalizing s with
  | nil => exact .inl ⟨rfl, (List.append_nil _).symm⟩
  | cons kv rest ih =>
      obtain ⟨k, v⟩ := kv
      rw [List.forall_mem_cons] at h
      rw [packKvs, encodeKvs, List.append_assoc]
      exact (h.1.1 s).andThen fun s' _ =>
        (h.1.2 s').andThen fun s'' _ => ih h.2 s''

/-- The calls for an object. -/
theorem packObject_wrote (h : Appends content write) (o : Value) (s : σ) :
    Wrote content s (encode o) (msgpackPackObject write s o) := by
  induction o using Object.induct generalizing s with
  | nil => exact h.wrote s _
  | boolean b =>
      rw [msgpackPackObject, encode]
      cases b with
      | false => exact h.wrote s _
      | true => exact h.wrote s _
  | positiveInteger n => exact h.wrote s _
  | negativeInteger n => exact h.wrote s _
  | float n => exact h.wrote s _
  | str body => exact (h.wrote s _).andThen fun s' _ => h.wrote s' _
  | bin body => exact (h.wrote s _).andThen fun s' _ => h.wrote s' _
  | ext type body => exact (h.wrote s _).andThen fun s' _ => h.wrote s' _
  | array items ih =>
      exact (h.wrote s _).andThen fun s' _ => packItems_wrote ih s'
  | map kvs ih =>
      exact (h.wrote s _).andThen fun s' _ => packKvs_wrote ih s'

theorem packObject_wrote_array :
    Wrote id [] [0x92, 0xc0, 0xc2]
      (msgpackPackObject (fun s bytes => (0, s ++ bytes)) []
        (.array [.nil, .boolean false])) :=
  packObject_wrote (fun _ _ => .inl ⟨rfl, rfl⟩) _ _

/-- The body of an object has at most `bound` bytes. -/
def BodyFits (bound : Nat) : Value → Prop
  | .str body => body.length ≤ bound
  | .bin body => body.length ≤ bound
  | .ext _ body => body.length ≤ bound
  | _ => True

/-- What both parts of a sequence keep is kept by it. -/
theorem andThen_keeps {I : σ → Prop} {next : σ → Int × σ} (h : I r.2)
    (hnext : ∀ s', I s' → I (next s').2) : I (andThen r next).2 := by
  unfold andThen
  split
  · exact h
  · exact hnext r.2 h

/-- No head is longer than 9 bytes. -/
theorem length_heads (n : Nat) (d : Int) (type : Int8) :
    (packRealUint64 d).length ≤ 9 ∧ (packRealInt64 d).length ≤ 9
      ∧ (packStr n).length ≤ 9 ∧ (packBin n).length ≤ 9
      ∧ (packExt n type).length ≤ 9 ∧ (packArray n).length ≤ 9
      ∧ (packMap n).length ≤ 9 := by
  refine ⟨?_, ?_, ?_, ?_, ?_, ?_, ?_⟩
  · unfold packRealUint64
    split_ifs <;> simp
  · unfold packRealInt64
    split_ifs <;> simp
  · unfold packStr
    split_ifs <;> simp
  · unfold packBin
    split_ifs <;> simp
  · unfold packExt
    split <;> try simp
    split_ifs <;> simp
  · unfold packArray
    split_ifs <;> simp
  · unfold packMap
    split_ifs <;> simp

/-- What one call keeps is kept by the calls for an object, if it is kept
for the sizes that are written. -/
theorem packObject_keeps {I : σ → Prop} {bound : Nat} (hbound : 9 ≤ bound)
    (hwrite : ∀ s bytes, bytes.length ≤ bound → I s →
      I (write s bytes).2)
    {o : Value} (ho : o.Every (BodyFits bound)) (hs : I s) :
    I (msgpackPackObject write s o).2 := by
  have hhead : ∀ s bytes, bytes.length ≤ 9 → I s →
      I (write s bytes).2 :=
    fun s bytes hlen => hwrite s bytes (Nat.le_trans hlen hbound)
  have hall := length_heads
  induction o using Object.induct generalizing s with
  | nil => exact hhead s _ (by decide) hs
  | boolean b =>
      rw [msgpackPackObject]
      cases b with
      | false => exact hhead s _ (by decide) hs
      | true => exact hhead s _ (by decide) hs
  | positiveInteger n => exact hhead s _ (hall 0 _ 0).1 hs
  | negativeInteger n => exact hhead s _ (hall 0 _ 0).2.1 hs
  | float n => exact hhead s _ (by simp [packDouble]) hs
  | str body =>
      exact andThen_keeps (hhead s _ (hall _ 0 0).2.2.1 hs)
        fun s' => hwrite s' body ho
  | bin body =>
      exact andThen_keeps (hhead s _ (hall _ 0 0).2.2.2.1 hs)
        fun s' => hwrite s' body ho
  | ext type body =>
      exact andThen_keeps (hhead s _ (hall _ 0 type).2.2.2.2.1 hs)
        fun s' => hwrite s' body ho
  | array items ih =>
      have hitems := (Object.everyItem_iff items).1 ho.2
      refine andThen_keeps (hhead s _ (hall _ 0 0).2.2.2.2.2.1 hs) ?_
      intro t ht
      clear ho
      induction items generalizing t with
      | nil => exact ht
      | cons o rest ihrest =>
          rw [List.forall_mem_cons] at hitems ih
          rw [packItems]
          exact andThen_keeps (ih.1 hitems.1 ht)
            fun t' => ihrest ih.2 hitems.2 t'
  | map kvs ih =>
      have hkvs := (Object.everyKv_iff kvs).1 ho.2
      refine andThen_keeps (hhead s _ (hall _ 0 0).2.2.2.2.2.2 hs) ?_
      intro t ht
      clear ho
      induction kvs generalizing t with
      | nil => exact ht
      | cons kv rest ihrest =>
          obtain ⟨k, v⟩ := kv
          rw [List.forall_mem_cons] at hkvs ih
          rw [packKvs]
          exact andThen_keeps (ih.1.1 hkvs.1.1 ht) fun t' ht' =>
            andThen_keeps (ih.1.2 hkvs.1.2 ht')
              fun t'' => ihrest ih.2 hkvs.2 t''

end Writes

-- ============================================================ the buffer

section Buffer

variable {w : Nat} {realloc : Nat → Nat → Bool} {s : Sbuffer}
  {buf : List UInt8}

/-- The callback of the buffer appends all or nothing. -/
theorem sbufferWrite_appends (w : Nat) (realloc : Nat → Nat → Bool) :
    Appends Sbuffer.data (msgpackSbufferWrite w realloc) := by
  intro s bytes
  unfold msgpackSbufferWrite
  split
  · dsimp only
    generalize growSize w _ _ = nsize
    split
    · exact .inl ⟨rfl, rfl⟩
    · exact .inr ⟨Int.negSucc_lt_zero 0, rfl⟩
  · exact .inl ⟨rfl, rfl⟩

/-- The bytes of the buffer are within its memory, which is of a size that
can be had. -/
structure Sbuffer.Within (w : Nat) (s : Sbuffer) : Prop where
  size : s.data.length ≤ s.alloc
  alloc : s.alloc < 2 ^ (w - 1)

/-- A write leaves them there. -/
theorem sbufferWrite_within (hw : 0 < w)
    (hrealloc : ∀ k n, realloc k n = true → n < 2 ^ (w - 1))
    (hbuf : buf.length ≤ 2 ^ (w - 1)) (hs : s.Within w) :
    (msgpackSbufferWrite w realloc s buf).2.Within w := by
  obtain ⟨hsize, halloc⟩ := hs
  have hpow : 2 ^ w = 2 * 2 ^ (w - 1) := by
    rw [← Nat.pow_succ', Nat.succ_eq_add_one, Nat.sub_add_cancel hw]
  have hneed : (s.data.length + buf.length) % 2 ^ w
      = s.data.length + buf.length := Nat.mod_eq_of_lt (by omega)
  unfold msgpackSbufferWrite
  split
  · dsimp only
    rw [hneed]
    generalize (if s.alloc ≠ 0 then s.alloc * 2 % 2 ^ w
      else msgpackSbufferInitSize) = start
    have hge := growSize_ge w (s.data.length + buf.length) start
    split
    · rename_i hgranted
      refine ⟨?_, hrealloc _ _ hgranted⟩
      show (s.data ++ buf).length ≤ _
      rw [List.length_append]
      exact hge
    · exact ⟨hsize, halloc⟩
  · refine ⟨?_, halloc⟩
    show (s.data ++ buf).length ≤ s.alloc
    rw [List.length_append]
    omega

/-- What a client makes of a buffer: objects packed into it, with bodies
that fit in memory, between calls that empty it. -/
inductive SbufferRun (w : Nat) (realloc : Nat → Nat → Bool) : Sbuffer →
    Prop
  | init : SbufferRun w realloc msgpackSbufferInit
  | pack {s : Sbuffer} {o : Value} : SbufferRun w realloc s →
      o.Every (BodyFits (2 ^ (w - 1))) →
      SbufferRun w realloc
        (msgpackPackObject (msgpackSbufferWrite w realloc) s o).2
  | clear {s : Sbuffer} : SbufferRun w realloc s →
      SbufferRun w realloc (msgpackSbufferClear s)
  | release {s : Sbuffer} : SbufferRun w realloc s →
      SbufferRun w realloc (msgpackSbufferRelease s).2

/-- The bytes of the buffer are within its memory in every run, if memory
comes in sizes of less than half of all that there could be. -/
theorem sbufferRun_within (hw : 5 ≤ w)
    (hrealloc : ∀ k n, realloc k n = true → n < 2 ^ (w - 1))
    (h : SbufferRun w realloc s) :
    s.data.length ≤ s.alloc ∧ s.alloc < 2 ^ (w - 1) := by
  have hpow : 2 ^ 4 ≤ 2 ^ (w - 1) :=
    Nat.pow_le_pow_right (by decide) (by omega)
  suffices hwithin : s.Within w from ⟨hwithin.size, hwithin.alloc⟩
  induction h with
  | init => exact ⟨Nat.le_refl 0, by show 0 < _; omega⟩
  | pack _ ho ih =>
      exact packObject_keeps (by omega)
        (fun s bytes hlen hs => sbufferWrite_within (by omega) hrealloc hlen hs)
        ho ih
  | clear _ ih => exact ⟨Nat.zero_le _, ih.alloc⟩
  | release _ ih => exact ⟨Nat.le_refl 0, by show 0 < _; omega⟩

/-- An object packed into a buffer that has been released. -/
theorem sbufferRun_within_nil :
    let realloc := fun _ n => decide (n < 2 ^ 63)
    let s := (msgpackPackObject (msgpackSbufferWrite 64 realloc)
      (msgpackSbufferRelease msgpackSbufferInit).2 .nil).2
    s.data.length ≤ s.alloc ∧ s.alloc < 2 ^ (64 - 1) :=
  sbufferRun_within (by decide) (fun _ _ h => of_decide_eq_true h)
    (.pack (.release .init) trivial)

end Buffer

-- ======================================================== the round trip

section RoundTrip

variable {β : Type} {env : Env β} {den : β → List UInt8} {w : Nat}
  {realloc : Nat → Nat → Bool} {s s' : Sbuffer} {o : Value}

/-- The bytes of an object that has been packed without an error. -/
theorem packObject_data
    (h : msgpackPackObject (msgpackSbufferWrite w realloc) s o = (0, s')) :
    s'.data = s.data ++ encode o := by
  have hwrote := packObject_wrote (sbufferWrite_appends w realloc) o s
  rw [h] at hwrote
  rcases hwrote with ⟨-, hdata⟩ | ⟨hfail, -⟩
  · exact hdata
  · exact absurd hfail (Int.lt_irrefl 0)

/-- An object that C can hold (`Sized`), packed at the end of a buffer, is
unpacked from there, whatever comes behind it, if memory suffices and
containers are nested in it no deeper than the stack; if they are nested
deeper, there is a parse error. -/
theorem unpack_packed (hden : env.Denotes den) (hgrants : env.Grants)
    (hsized : Sized o)
    (hpack : msgpackPackObject (msgpackSbufferWrite w realloc) s o
      = (0, s')) (post : List UInt8) :
    (o.depth ≤ msgpackEmbedStackSize → ∃ v, v.mapBody den = o
        ∧ msgpackUnpackNext env true (s'.data ++ post) s.data.length
          = (.success, some v, s'.data.length))
      ∧ (msgpackEmbedStackSize < o.depth →
        msgpackUnpackNext env true (s'.data ++ post) s.data.length
          = (.parseError, none, s.data.length)) := by
  rw [packObject_data hpack, List.append_assoc, List.length_append]
  exact unpackNext_wire hden hgrants (encode_wires env.toDouble hsized)

/-- An object in an array, packed where there is room for it. -/
theorem unpack_packed_nil :
    ∃ v, v.mapBody id = (.array [.nil] : Value)
      ∧ msgpackUnpackNext (bytesEnv fun _ => 0) true [0x91, 0xc0, 0x01] 0
        = (.success, some v, 2) :=
  (@unpack_packed _ (bytesEnv fun _ => 0) id 64 (fun _ _ => true)
    ⟨[], 8192, 0⟩ ⟨[0x91, 0xc0], 8192, 0⟩ (.array [.nil])
    (bytesEnv_denotes _) (bytesEnv_grants _)
    ⟨(by decide : 1 < 2 ^ 32), trivial, trivial⟩ rfl [0x01]).1 (by decide)

/-- What an object that has bytes in the format takes in a buffer is bytes
of it in the format, and no more than any other bytes of it would be, if
there are no floating-point numbers in it. -/
theorem packed_shortest {toDouble : UInt32 → UInt64} {bytes : List UInt8}
    (hpack : msgpackPackObject (msgpackSbufferWrite w realloc) s o
      = (0, s')) (h : Wire toDouble o bytes)
    (hfloat : o.Every fun o => ¬ IsFloat o) :
    Wire toDouble o (s'.data.drop s.data.length)
      ∧ s'.data.length ≤ s.data.length + bytes.length := by
  obtain ⟨hwire, hle⟩ := encode_shortest h hfloat
  rw [packObject_data hpack, List.drop_left, List.length_append]
  exact ⟨hwire, by omega⟩

/-- A string with a head that is longer than need be. -/
theorem packed_shortest_str :
    Wire (fun _ => 0) (.str [0x61]) [0xa1, 0x61] ∧ 2 ≤ 0 + 3 :=
  @packed_shortest 64 (fun _ _ => true) ⟨[], 8192, 0⟩
    ⟨[0xa1, 0x61], 8192, 0⟩ (.str [0x61]) (fun _ => 0) [0xd9, 0x01, 0x61]
    rfl (Wires.one (@Scalar.str _ true [0xd9, 0x01] [0x61]
      (@Head.sized _ _ _ 1 0xd9 [0x01] (by decide) rfl))) id

end RoundTrip

-- ============================================================== equality

section Equality

variable {feq : UInt64 → UInt64 → Bool}

/-- Lists of one length are compared item by item. -/
theorem equalItems_iff {xs ys : List Value}
    (h : ∀ x ∈ xs, ∀ y ∈ ys,
      Object.msgpackObjectEqual feq x y = true ↔ x = y)
    (hlen : xs.length = ys.length) :
    Object.equalItems feq xs ys = true ↔ xs = ys := by
  induction xs generalizing ys with
  | nil =>
      obtain rfl := List.length_eq_zero_iff.1 hlen.symm
      simp [Object.equalItems]
  | cons x xs ih =>
      obtain ⟨hx, hxs⟩ := List.forall_mem_cons.1 h
      cases ys with
      | nil => cases hlen
      | cons y ys =>
          have hrest : ∀ x ∈ xs, ∀ y ∈ ys,
              Object.msgpackObjectEqual feq x y = true ↔ x = y :=
            fun x hx y hy => hxs x hx y (List.mem_cons_of_mem _ hy)
          rw [Object.equalItems, Bool.and_eq_true,
            hx y (List.mem_cons_self ..), ih hrest (Nat.succ.inj hlen),
            List.cons.injEq]

/-- So are lists of keys and values. -/
theorem equalKvs_iff {xs ys : List (Value × Value)}
    (h : ∀ x ∈ xs, ∀ y ∈ ys,
      (Object.msgpackObjectEqual feq x.1 y.1 = true ↔ x.1 = y.1)
        ∧ (Object.msgpackObjectEqual feq x.2 y.2 = true ↔ x.2 = y.2))
    (hlen : xs.length = ys.length) :
    Object.equalKvs feq xs ys = true ↔ xs = ys := by
  induction xs generalizing ys with
  | nil =>
      obtain rfl := List.length_eq_zero_iff.1 hlen.symm
      simp [Object.equalKvs]
  | cons x xs ih =>
      obtain ⟨hx, hxs⟩ := List.forall_mem_cons.1 h
      cases ys with
      | nil => cases hlen
      | cons y ys =>
          obtain ⟨hkey, hvalue⟩ := hx y (List.mem_cons_self ..)
          rw [Object.equalKvs, Bool.and_eq_true, Bool.and_eq_true, hkey,
            hvalue, ih (fun x hx y hy => hxs x hx y
              (List.mem_cons_of_mem _ hy)) (Nat.succ.inj hlen),
            List.cons.injEq, Prod.ext_iff]

/-- No floating-point number is in an object. -/
def FloatFree (o : Value) : Prop := o.Every fun o => ¬ IsFloat o

/-- `msgpack_object_equal` says whether two objects are the same, if there
are no floating-point numbers in one of them, be it the first or the
second. -/
theorem objectEqual_iff {x y : Value} (hfloat : FloatFree x ∨ FloatFree y) :
    Object.msgpackObjectEqual feq x y = true ↔ x = y := by
  induction x using Object.induct generalizing y with
  | float d =>
      -- two numbers are not compared as bits, but one object has none
      cases y with
      | float d' =>
          rcases hfloat with h | h
          · exact absurd trivial h
          · exact absurd trivial h
      | _ => simp [Object.msgpackObjectEqual]
  | array items ih =>
      cases y with
      | array items' =>
          have hitems : ∀ x ∈ items, ∀ y ∈ items',
              Object.msgpackObjectEqual feq x y = true ↔ x = y := by
            refine fun x hx y hy => ih x hx (hfloat.imp (fun h => ?_)
              fun h => ?_)
            · exact (Object.everyItem_iff items).1 h.2 x hx
            · exact (Object.everyItem_iff items').1 h.2 y hy
          rw [Object.msgpackObjectEqual, Bool.and_eq_true, beq_iff_eq,
            Object.array.injEq]
          constructor
          · rintro ⟨hlen, hsame⟩
            exact (equalItems_iff hitems hlen).1 hsame
          · rintro rfl
            exact ⟨rfl, (equalItems_iff hitems rfl).2 rfl⟩
      | _ => simp [Object.msgpackObjectEqual]
  | map kvs ih =>
      cases y with
      | map kvs' =>
          have hkvs : ∀ x ∈ kvs, ∀ y ∈ kvs',
              (Object.msgpackObjectEqual feq x.1 y.1 = true ↔ x.1 = y.1)
                ∧ (Object.msgpackObjectEqual feq x.2 y.2 = true
                  ↔ x.2 = y.2) := by
            intro x hx y hy
            have hboth : FloatFree x.1 ∧ FloatFree x.2
                ∨ FloatFree y.1 ∧ FloatFree y.2 := by
              refine hfloat.imp (fun h => ?_) fun h => ?_
              · exact (Object.everyKv_iff kvs).1 h.2 x hx
              · exact (Object.everyKv_iff kvs').1 h.2 y hy
            exact ⟨(ih x hx).1 (hboth.imp And.left And.left),
              (ih x hx).2 (hboth.imp And.right And.right)⟩
          rw [Object.msgpackObjectEqual, Bool.and_eq_true, beq_iff_eq,
            Object.map.injEq]
          constructor
          · rintro ⟨hlen, hsame⟩
            exact (equalKvs_iff hkvs hlen).1 hsame
          · rintro rfl
            exact ⟨rfl, (equalKvs_iff hkvs rfl).2 rfl⟩
      | _ => simp [Object.msgpackObjectEqual]
  | _ => cases y <;> simp [Object.msgpackObjectEqual] <;> grind

/-- The first has a number in it, the second has none. -/
theorem objectEqual_iff_str :
    Object.msgpackObjectEqual (fun _ _ => true) (.array [.float 0])
      (.array [.str [0x61]]) = true
      ↔ (.array [.float 0] : Value) = .array [.str [0x61]] :=
  objectEqual_iff (.inr ⟨id, id, trivial⟩)

end Equality

end ProjectsLibs.Msgpack
