import RdmaSync.Mplex.Input

/-!
# Reads — invariants of the calls that read

The rule for `read_a_msg`, `read_buf` and every run: an invariant `J` of
the input side that is kept when a header, a message or payload bytes are
taken out holds after every call, however deep the calls from inside the
loops are nested, together with an invariant `K` of the output side. `Jh`
is what holds where a program may halt, half way through a message.
-/

namespace RdmaSync.Mplex

open Std.Do

set_option mvcgen.warning false

/-- A header was taken from `v`, and `i` is what is left. -/
structure HeaderRead (v : InSide) (word : Bytes) (i : InSide) : Prop extends
    Took { v with inMultiplexed := .reading } word i where
  ends : v.rawInputEndsBefore = 0
  four : word.length = 4

/-- **What an invariant `J` of the input side has to be** for the calls that
read to keep it. -/
structure Reads (role : Role) (B : MsgCode → Bytes → Prop) (J Jh : InSide → Prop) : Prop where
  wf : ∀ i, J i → InWf i
  ready : ∀ i, J i → i.inMultiplexed = .ready
  same : ∀ v i, J v → Same v i → J i
  halts : ∀ i, J i → Jh i
  halts_same : ∀ v i, Jh v → Same v i → Jh i
  halts_mode : ∀ i mode, Jh i → Jh { i with inMultiplexed := mode }
  header : ∀ v word i, J v → HeaderRead v word i → Jh i
  data : ∀ v word i, J v → HeaderRead v word i → MsgCode.ofTag (msgTag (ival word)) = some .data →
    J { i with
      rawInputEndsBefore :=
        if msgBytes (ival word) ≠ 0 then i.inp.pos + msgBytes (ival word) else 0
      inMultiplexed := .ready }
  message : ∀ v word i code payload j, J v → HeaderRead v word i →
    MsgCode.ofTag (msgTag (ival word)) = some code → code ≠ .data →
    role.accepts code (msgBytes (ival word)) = true → payload.length = msgBytes (ival word) →
    Took i payload j →
    J { j with dispatched := j.dispatched ++ [⟨code, payload⟩], inMultiplexed := .ready }
  deliver : ∀ v bytes i, J v → bytes.length ≤ v.left → Took v bytes i →
    J { i with delivered := i.delivered ++ bytes }
  forwards : ∀ m : Msg, m.code ≠ .data → role.accepts m.code m.payload.length = true →
    ∀ c ∈ role.forwards m, c.Promised B

theorem InWf.with_mode {i : InSide} (h : InWf i) (mode : InMultiplexed) :
    InWf { i with inMultiplexed := mode } := h.of_eq rfl rfl

theorem Same.with_mode {v i : InSide} (h : Same v i) (mode : InMultiplexed) :
    Same { v with inMultiplexed := mode } { i with inMultiplexed := mode } :=
  ⟨h.wf.with_mode mode, h.stream, h.left, h.size, rfl, h.dispatched, h.delivered⟩

def MsgCode.isRelayed : MsgCode → Bool
  | .ioError | .deleted | .noSend | .errorExit => true
  | _ => false

theorem Role.forwards_cases (role : Role) (m : Msg) {c : Call} (hc : c ∈ role.forwards m) :
    c = .sendMsg m.code m.payload ∧ m.code.isRelayed = true ∨ c = .sendMsg .errorExit [] ∨
      c = .ioFlush .full ∨ c = .maybeSendKeepalive true := by
  unfold Role.forwards at hc
  repeat' split at hc
  all_goals simp only [List.mem_cons, List.not_mem_nil, or_false] at hc
  all_goals rename_i hcode
  all_goals first
    | exact .inr (.inr (.inr hc))
    | exact .inr (.inl hc)
    | exact .inl ⟨hc.trans (by simp [*]), by simp [*, MsgCode.isRelayed]⟩
    | exact hc.elim (fun h => .inr (.inl h)) fun h => .inr (.inr (.inl h))

theorem Role.forwards_isOutput (role : Role) (m : Msg) {c : Call} (hc : c ∈ role.forwards m) :
    c.isOutput = true := by
  rcases role.forwards_cases m hc with ⟨rfl, -⟩ | rfl | rfl | rfl <;> rfl

theorem Meets.forM {α : Type} {P H : Iobuf → Prop} {f : α → Io Unit} {l : List α}
    (h : ∀ a ∈ l, Meets P (f a) (fun _ => P) H) : Meets P (l.forM f) (fun _ => P) H := by
  induction l with
  | nil => mvcgen [List.forM_nil]
  | cons a l ih =>
    have ha := h a List.mem_cons_self
    have hl := ih fun b hb => h b (List.mem_cons_of_mem a hb)
    change Meets P (do f a; l.forM f) (fun _ => P) H
    mvcgen [ha, hl]

section Reads

variable {K : OutSide → Prop} {B : MsgCode → Bytes → Prop} {role : Role}
  {J Jh : InSide → Prop} {n d : Nat}

structure Nested (K : OutSide → Prop) (B : MsgCode → Bytes → Prop) (J Jh : InSide → Prop)
    (cb : Callbacks) : Prop where
  perform : ∀ n c, c.Promised B → Meets (Running K B n J) (cb.perform c)
    (fun _ => Running K B (n + c.requested) J) (Halted K Jh)
  readAMsg : ∀ n, Meets (fun s => Running K B n J s ∧ s.rawInputEndsBefore = 0) cb.readAMsg
    (fun _ => Running K B n J) (Halted K Jh)

theorem Reads.stable (hW : Writes K B) (hR : Reads role B J Jh) {cb : Callbacks}
    (hcb : Nested K B J Jh cb) (need : Need) :
    Stable role cb need (Running K B n J) (Halted K Jh) (fun _ => True) := by
  refine hW.stable hR.halts (fun i hi => hR.same i _ hi (Same.refl (hR.wf i hi)).rebase)
    (fun i got hi => hR.same i _ hi ((Same.refl (hR.wf i hi)).readSome got))
    (fun i hi => hR.same i _ hi (Same.refl (hR.wf i hi)).eof) (fun _ => ?_)
    (fun _ _ _ => trivial) (fun _ _ _ _ _ => trivial) (fun m c _ hB => hcb.perform m c hB)
  exact (hcb.readAMsg n).imp (fun s hs => ⟨hs.1, hs.2.2.1⟩) (fun _ s hs => ⟨hs, hR.ready _ hs.2⟩)
    (fun _ hs => hs)

theorem dispatch_of {cb : Callbacks} {m : Msg} {v : InSide} {Q : InSide → Prop}
    (hQ : Q { v with
      dispatched := v.dispatched ++ [m]
      inMultiplexed := if m.code.isLog then .reading else .ready })
    (hback : ∀ i, Q i → J { i with inMultiplexed := .ready }) (hJ : ∀ i, J i → Jh i)
    (hfwd : Meets (Running K B n Q) ((role.forwards m).forM cb.perform)
      (fun _ => Running K B n Q) (Halted K Jh))
    (hserve : Meets (Running K B n Q) (serve cb Call.isOutput)
      (fun _ => Running K B n Q) (Halted K Jh)) :
    Meets (Running K B n (· = v)) (dispatch role cb m)
      (fun _ => Running K B n J) (Halted K Jh) := by
  mvcgen [dispatch, modifyIn, hfwd, hserve]
  case vc1.pre s hs _ =>
    obtain ⟨hout, rfl⟩ := hs
    exact ⟨hout.with_in rfl, hQ⟩
  case vc3.post.success.post.success.isTrue s hs _ _ => exact ⟨hs.1.out, hJ _ (hback _ hs.2)⟩
  case vc4.post.success.post.success.isFalse s hs _ _ => exact ⟨hs.1.with_in rfl, hback _ hs.2⟩

section

variable (hW : Writes K B) (hR : Reads role B J Jh) (hcb : Nested K B J Jh (callbacks role d))

include hW hR hcb

theorem Reads.dispatch_meets {m : Msg} (hm : m.code ≠ .data)
    (haccept : role.accepts m.code m.payload.length = true) {v : InSide}
    (hv : J { v with dispatched := v.dispatched ++ [m], inMultiplexed := .ready }) :
    Meets (Running K B n (· = v)) (dispatch role (callbacks role d) m)
      (fun _ => Running K B n J) (Halted K Jh) := by
  by_cases hlog : m.code.isLog = true
  · let w : InSide := { v with dispatched := v.dispatched ++ [m], inMultiplexed := .reading }
    have hwf : InWf w := (hR.wf _ hv).with_mode .reading
    have hquiet : Quiet role w := .inl InMultiplexed.noConfusion
    have hback : ∀ i, Same w i → J { i with inMultiplexed := .ready } :=
      fun i hi => hR.same _ _ hv (hi.with_mode .ready)
    have hhalt : ∀ i, Same w i → Jh i := fun i hi =>
      hR.halts_mode { i with inMultiplexed := .ready } i.inMultiplexed (hR.halts _ (hback i hi))
    have hcalls : ∀ m c, c.isOutput = true → c.Promised B →
        Meets (Running K B m (Same w)) ((callbacks role d).perform c)
          (fun _ => Running K B m (Same w)) (Halted K (Same w)) :=
      fun m c hc hB => hW.quiet_callbacks (Same.frozen w) hquiet d hc hB
    refine dispatch_of (Q := Same w) ?_ hback hR.halts ?_ ?_
    · rw [if_pos hlog]
      exact Same.refl hwf
    · refine (Meets.forM fun c (hc : c ∈ role.forwards m) => hcalls n c
        (role.forwards_isOutput m hc) (hR.forwards m hm haccept c hc)).imp (fun _ hs => hs)
        (fun _ _ hs => hs) (fun s hs => ⟨hs.1, hhalt _ hs.2⟩)
    · have hstable := hW.room_stable (n := n) (Same.frozen w) hquiet hcalls
        (show Need.outRoom ≠ .input by decide)
      exact (hstable.serve Call.isOutput).imp (fun _ hs => ⟨hs, fun _ hc => hc⟩)
        (fun _ _ hs => hs) (fun s hs => ⟨hs.1, hhalt _ hs.2⟩)
  · refine dispatch_of (Q := J) ?_ ?_ hR.halts ?_ ?_
    · rw [if_neg hlog]
      exact hv
    · intro i hi
      have hready := hR.ready i hi
      cases i
      subst hready
      exact hi
    · refine Meets.forM fun c hc => ?_
      have hperform := hcb.perform n c (hR.forwards m hm haccept c hc)
      rwa [Call.requested_of_isOutput (role.forwards_isOutput m hc)] at hperform
    · exact ((hR.stable hW hcb .outRoom).serve Call.isOutput).imp
        (fun _ hs => ⟨hs, fun _ _ => trivial⟩) (fun _ _ hs => hs) (fun _ hs => hs)

theorem Reads.body_meets {v : InSide} (hv : J v) {word : Bytes} {code : MsgCode}
    (htag : MsgCode.ofTag (msgTag (ival word)) = some code) (hcode : code ≠ .data)
    (haccept : role.accepts code (msgBytes (ival word)) = true) :
    Meets (fun s => Outer K B n s ∧ HeaderRead v word s.toInSide)
      (do
        let payload ← readBody role (callbacks role d) code (msgBytes (ival word))
        dispatch role (callbacks role d) ⟨code, payload⟩)
      (fun _ => Running K B n J) (Halted K Jh) := by
  apply Meets.of_state
  rintro s ⟨hout, hhead⟩
  have hzero : s.rawInputEndsBefore = 0 := by
    rw [← hhead.wf.left_eq_zero, hhead.left]
    simp only [InSide.left, hhead.ends, Nat.zero_sub]
  have hbody := hW.readBody_meets role n d hhead.wf
    (fun h => InMultiplexed.noConfusion (hhead.mode.symm.trans h)) hzero haccept
  refine ((hbody.at_state ⟨hout, rfl⟩).imp (fun _ ht => ht) (fun _ _ ht => ht)
    (fun t ht => ⟨ht.1, hR.halts_same _ _ (hR.header v word _ hv hhead) ht.2⟩)).bind ?_
  intro payload
  apply Meets.of_state
  rintro t ⟨hout', hlen, htook⟩
  exact (hR.dispatch_meets hW hcb (m := ⟨code, payload⟩) hcode (hlen.symm ▸ haccept)
    (hR.message v word _ code payload _ hv hhead htag hcode haccept hlen htook)).at_state
    ⟨hout', rfl⟩

/-- **Reading a message.** -/
theorem Reads.readAMsg_meets :
    Meets (fun s => Running K B n J s ∧ s.rawInputEndsBefore = 0)
      (readAMsg role (callbacks role d))
      (fun _ => Running K B n J) (Halted K Jh) := by
  apply Meets.of_state
  rintro s₀ ⟨⟨hout₀, hv⟩, hzero⟩
  have hhalt : ∀ i, Same { s₀.toInSide with inMultiplexed := .reading } i → Jh i := fun i hi =>
    hR.halts_same _ i (hR.halts_mode _ .reading (hR.halts _ hv)) hi
  have hword : Meets
      (fun s => Outer K B n s ∧ s.toInSide = { s₀.toInSide with inMultiplexed := .reading })
      (rawReadWord role (callbacks role d))
      (fun word s => Outer K B n s ∧ HeaderRead s₀.toInSide word s.toInSide)
      (Halted K Jh) :=
    (hW.rawReadWord_meets role n d ((hR.wf _ hv).with_mode .reading)
      (.inl InMultiplexed.noConfusion)
      (fun h => absurd hzero h)).imp (fun _ hs => hs)
      (fun _ _ hs => ⟨hs.1, hs.2.2, hzero, hs.2.1⟩) (fun _ hs => ⟨hs.1, hhalt _ hs.2⟩)
  have hbody := fun (word : Bytes) (code : MsgCode)
      (htag : MsgCode.ofTag (msgTag (ival word)) = some code) (hcode : code ≠ .data)
      (haccept : role.accepts code (msgBytes (ival word)) = true) =>
    hR.body_meets (n := n) hW hcb hv htag hcode haccept
  unfold readAMsg
  refine Meets.bind (Q := fun _ s => Outer K B n s ∧
    s.toInSide = { s₀.toInSide with inMultiplexed := .reading }) ?_ fun _ => hword.bind ?_
  · mvcgen [modifyIn]
    rename_i s hs _
    subst hs
    exact ⟨hout₀.with_in rfl, rfl⟩
  · intro word
    dsimp only
    split
    · mvcgen
      rename_i s hs
      exact ⟨hs.1.out, hR.header _ _ _ hv hs.2⟩
    · rename_i htag
      mvcgen [modifyIn]
      · rename_i s hs _ _
        exact ⟨hs.1.with_in rfl, hR.data _ _ _ hv hs.2 htag⟩
      · rename_i s hs _
        exact ⟨hs.1.out, hR.header _ _ _ hv hs.2⟩
    · rename_i code hcode htag
      by_cases haccept : role.accepts code (msgBytes (ival word)) = true
      · rw [if_pos haccept]
        exact hbody word code htag hcode haccept
      · rw [if_neg haccept]
        mvcgen
        rename_i s hs
        exact ⟨hs.1.out, hR.header _ _ _ hv hs.2⟩

/-- Waiting for a payload. -/
theorem Reads.awaitData_meets (fuel : Nat) :
    Meets (Running K B n J) (awaitData role (callbacks role d) fuel)
      (fun _ s => Running K B n J s ∧ s.rawInputEndsBefore ≠ 0) (Halted K Jh) := by
  have hmsg := hR.readAMsg_meets (n := n) hW hcb
  induction fuel with
  | zero => exact blocked_meets fun s hs => ⟨hs.1.out, hR.halts _ hs.2⟩
  | succ fuel ih => mvcgen [awaitData, hmsg, ih]

end

/-- Taking bytes out of a payload. -/
theorem Reads.rawReadBuf_meets (hW : Writes K B) (hR : Reads role B J Jh) (siz : Nat) :
    Meets (fun s => Running K B n J s ∧ s.rawInputEndsBefore ≠ 0 ∧ siz ≤ s.toInSide.left)
      (rawReadBuf role (callbacks role d) siz)
      (fun buf s => Outer K B n s ∧ buf.length = siz ∧
        J { s.toInSide with delivered := s.delivered ++ buf }) (Halted K Jh) := by
  apply Meets.of_state
  rintro s ⟨⟨hout, hJ⟩, hends, hsiz⟩
  have hwf := hR.wf _ hJ
  have hraw := hW.rawReadBuf_meets role n d hwf (.inr fun h => hends (hwf.left_eq_zero.mp h))
    (fun _ => hsiz)
  exact (hraw.at_state ⟨hout, rfl⟩).imp (fun _ hs => hs)
    (fun buf t ht => ⟨ht.1, ht.2.1, hR.deliver _ buf _ hJ (ht.2.1.trans_le hsiz) ht.2.2⟩)
    (fun t ht => ⟨ht.1, hR.halts _ (hR.same _ _ hJ ht.2)⟩)

theorem Outer.delivered {s : Iobuf} (h : Outer K B n s) (buf : Bytes) :
    Outer K B (n + buf.length)
      { s with toInSide := { s.toInSide with delivered := s.delivered ++ buf } } := by
  refine ⟨h.out, h.promised, ?_⟩
  have hcount := h.count
  simp only [List.length_append]
  omega

theorem Reads.outputs (hW : Writes K B) (hR : Reads role B J Jh)
    (hcb : Nested K B J Jh (callbacks role d)) :
    Outputs role (callbacks role d) (Running K B n J) (Halted K Jh) (fun _ => True) B :=
  hW.outputs fun need _ => hR.stable hW hcb need

theorem siz_le (len left size : Nat) :
    (if min len left ≥ size then size else min len left) ≤ min len left := by
  split <;> omega

section

variable (hW : Writes K B) (hR : Reads role B J Jh)

include hW hR

theorem Reads.readRound_meets (hcb : Nested K B J Jh (callbacks role d)) (len : Nat) :
    Meets (Running K B n J) (readRound role (callbacks role d) len)
      (fun siz s => siz ≤ len ∧ Running K B (n + siz) J s) (Halted K Jh) := by
  have hawait := hR.awaitData_meets (n := n) hW hcb
  have hraw := hR.rawReadBuf_meets (n := n) (d := d) hW
  have hwrite := fun buf : Bytes => (hR.outputs (n := n + buf.length) hW hcb).writeBuf buf
  mvcgen [readRound, modifyIn, hawait, hraw, hwrite]
  case vc2.post.success.pre s hs _ _ =>
    exact ⟨hs.1, hs.2, (siz_le ..).trans (Nat.min_le_right ..)⟩
  case vc3.post.success.post.success.isTrue.pre s hs _ _ buf t ht _ _ _ =>
    exact ⟨ht.1.delivered buf, ht.2.2⟩
  case vc4.post.success.post.success.isTrue.post.success s hs _ _ buf t ht _ _ _ _ u hu =>
    exact ⟨(siz_le ..).trans (Nat.min_le_left ..), ht.2.1 ▸ hu⟩
  case vc5.post.success.post.success.isFalse s hs _ _ buf t ht _ _ _ =>
    exact ⟨(siz_le ..).trans (Nat.min_le_left ..), ht.2.1 ▸ ht.1.delivered buf, ht.2.2⟩

theorem Reads.readLoop_meets (hcb : Nested K B J Jh (callbacks role d)) (len fuel : Nat) :
    Meets (Running K B n J) (readLoop role (callbacks role d) len fuel)
      (fun _ => Running K B (n + len) J) (Halted K Jh) := by
  induction fuel generalizing n len with
  | zero => exact blocked_meets fun s hs => ⟨hs.1.out, hR.halts _ hs.2⟩
  | succ fuel ih =>
    refine (hR.readRound_meets hW hcb len).bind fun siz => ?_
    have hrest := ih (n := n + siz) (len - siz)
    mvcgen [hrest]
    case vc1.succ.isTrue hdone s hs =>
      rw [show n + len = n + siz by omega]
      exact hs.2
    case vc2.succ.isFalse.pre s hs => exact hs.2
    case vc3.succ.isFalse.post.success s hs _ t =>
      rw [show n + siz + (len - siz) = n + len by omega]
      exact fun hout hJ => ⟨hout, hJ⟩

theorem Reads.readBuf_meets (hcb : Nested K B J Jh (callbacks role d)) (len : Nat) :
    Meets (Running K B n J) (readBuf role (callbacks role d) len)
      (fun _ => Running K B (n + len) J) (Halted K Jh) := by
  have hloop := hR.readLoop_meets (n := n) hW hcb
  mvcgen [readBuf, hloop]
  rename_i s hs hoff
  exact absurd (hoff.symm.trans (hR.ready _ hs.2)) InMultiplexed.noConfusion

theorem Reads.nested (d : Nat) : Nested K B J Jh (callbacks role d) := by
  induction d with
  | zero =>
    exact ⟨fun n c _ => blocked_meets fun s hs => ⟨hs.1.out, hR.halts _ hs.2⟩,
      fun n => blocked_meets fun s hs => ⟨hs.1.1.out, hR.halts _ hs.1.2⟩⟩
  | succ d ih =>
    refine ⟨fun n c hB => ?_, fun n => hR.readAMsg_meets hW ih⟩
    by_cases hout : c.isOutput = true
    · rw [Call.requested_of_isOutput hout]
      exact (hR.outputs hW ih).performCall hout hB
    · cases c with
      | readBuf len => exact hR.readBuf_meets hW ih len
      | _ => exact absurd rfl hout

theorem Reads.runCalls_meets (d : Nat) {calls : List Call} (hcalls : ∀ c ∈ calls, c.Promised B) :
    Meets (Running K B n J) (runCalls role d calls)
      (fun _ => Running K B (n + (calls.map Call.requested).sum) J) (Halted K Jh) := by
  induction calls generalizing n with
  | nil => mvcgen [runCalls, List.forM_nil]
  | cons c calls ih =>
    have hfirst := (hR.nested hW (d + 1)).perform n c (hcalls c List.mem_cons_self)
    have hrest := ih (n := n + c.requested) fun c hc => hcalls c (List.mem_cons_of_mem _ hc)
    rw [List.map_cons, List.sum_cons, ← Nat.add_assoc]
    exact hfirst.bind fun _ => hrest

end

end Reads

end RdmaSync.Mplex
