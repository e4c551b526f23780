import RdmaSync.Lib.Wire

/-!
# Parse — reading from a byte stream

A parser takes bytes off the front of a stream or gives up. `Reads p bytes a`
says that `p` gives `a` for a stream that starts with `bytes` and leaves what
follows alone.
-/

namespace Lib.Parse

open Lib.Wire

/-- A parser; `none` means that nothing comes back. -/
abbrev Parser (α : Type) := StateT Bytes Option α

def fail {α : Type} : Parser α := fun _ => none

def check (p : Prop) [Decidable p] : Parser Unit := if p then pure () else fail

def ofOption {α : Type} (r : Option α) : Parser α := fun bs => r.map fun a => (a, bs)

def byte : Parser UInt8
  | [] => none
  | b :: bs => some (b, bs)

def bytes (n : Nat) : Parser Bytes := takeBytes n

def leNat (bs : Bytes) : Nat := bs.foldr (fun b n => b.toNat + 256 * n) 0

def leBytes : Nat → Nat → Bytes
  | 0, _ => []
  | k + 1, n => UInt8.ofNat n :: leBytes k (n / 256)

def signedOf (bits n : Nat) : Int := if n < 2 ^ (bits - 1) then n else n - 2 ^ bits

/-! ## Runs of a parser -/

section Runs

variable {α β : Type} {p : Parser α} {f : α → Parser β} {bs rest : Bytes} {a : α} {b : β}

@[simp] theorem pure_apply (a : α) (bs : Bytes) : (pure a : Parser α) bs = some (a, bs) := rfl

theorem bind_apply (p : Parser α) (f : α → Parser β) (bs : Bytes) :
    (p >>= f) bs = (p bs).bind fun r => f r.1 r.2 := rfl

theorem bind_eq_some : (p >>= f) bs = some (b, rest) ↔
    ∃ a mid, p bs = some (a, mid) ∧ f a mid = some (b, rest) := by
  rw [bind_apply, Option.bind_eq_some_iff]
  constructor
  · rintro ⟨⟨a, mid⟩, hp, hf⟩
    exact ⟨a, mid, hp, hf⟩
  · rintro ⟨a, mid, hp, hf⟩
    exact ⟨⟨a, mid⟩, hp, hf⟩

theorem map_eq_some {g : α → β} : (g <$> p) bs = some (b, rest) ↔
    ∃ a, p bs = some (a, rest) ∧ g a = b := by
  rw [map_eq_pure_bind, bind_eq_some]
  constructor
  · rintro ⟨a, mid, hp, hpure⟩
    cases hpure
    exact ⟨a, hp, rfl⟩
  · rintro ⟨a, hp, rfl⟩
    exact ⟨a, rest, hp, rfl⟩

theorem ofOption_bind_eq_some {r : Option α} {g : α → Parser β} :
    (ofOption r >>= g) bs = some (b, rest) ↔ ∃ a, r = some a ∧ g a bs = some (b, rest) := by
  cases r with
  | none => simp [ofOption, bind_apply]
  | some a => simp [ofOption, bind_apply]

end Runs

/-! ## What every result has -/

structure Always {α : Type} (p : Parser α) (post : α → Prop) : Prop where
  of_eq : ∀ {bs a rest}, p bs = some (a, rest) → post a

section Always

variable {α β : Type} {p : Parser α} {f : α → Parser β} {mid : α → Prop} {post : β → Prop} {b : β}

theorem Always.pure (h : post b) : Always (Pure.pure b : Parser β) post := by
  constructor
  intro bs a rest heq
  cases heq
  exact h

theorem Always.fail : Always (Parse.fail : Parser β) post := ⟨fun heq => by cases heq⟩

theorem Always.trivial (p : Parser α) : Always p fun _ => True := ⟨fun _ => True.intro⟩

theorem Always.bind (hp : Always p mid) (hf : ∀ a, mid a → Always (f a) post) :
    Always (p >>= f) post := by
  constructor
  intro bs b rest heq
  obtain ⟨a, bs', ha, hb⟩ := bind_eq_some.mp heq
  exact (hf a (hp.of_eq ha)).of_eq hb

theorem Always.seq (hf : ∀ a, Always (f a) post) : Always (p >>= f) post :=
  (Always.trivial p).bind fun a _ => hf a

theorem Always.map {g : α → β} (hp : Always p fun a => post (g a)) : Always (g <$> p) post := by
  constructor
  intro bs b rest heq
  obtain ⟨a, ha, rfl⟩ := map_eq_some.mp heq
  exact hp.of_eq ha

theorem Always.ofOption {r : Option β} (h : ∀ b, r = some b → post b) :
    Always (Parse.ofOption r) post := by
  constructor
  intro bs b rest heq
  obtain ⟨b', hb, hpair⟩ := Option.map_eq_some_iff.mp heq
  cases hpair
  exact h b hb

end Always

/-! ## Reading back what was written -/

/-- The parser gives the value for these bytes and leaves the rest. -/
def Reads {α : Type} (p : Parser α) (bytes : Bytes) (a : α) : Prop :=
  ∀ rest, p (bytes ++ rest) = some (a, rest)

section Reads

variable {α β : Type} {p q : Parser α} {f : α → Parser β} {us vs : Bytes} {a : α} {b : β}

theorem Reads.pure (a : α) : Reads (Pure.pure a : Parser α) [] a := fun _ => rfl

theorem Reads.bind (hp : Reads p us a) (hf : Reads (f a) vs b) : Reads (p >>= f) (us ++ vs) b := by
  intro rest
  rw [bind_eq_some, List.append_assoc]
  exact ⟨a, vs ++ rest, hp _, hf rest⟩

theorem Reads.fmap (g : α → β) (hp : Reads p us a) : Reads (g <$> p) us (g a) :=
  fun rest => map_eq_some.mpr ⟨a, hp rest, rfl⟩

theorem Reads.map (g : α → β) (hp : Reads p us a) : Reads (do return g (← p)) us (g a) := by
  intro rest
  rw [bind_eq_some]
  exact ⟨a, rest, hp rest, rfl⟩

theorem Reads.check {c : Prop} [Decidable c] (h : c) : Reads (Parse.check c) [] () := by
  intro rest
  rw [Parse.check, if_pos h]
  rfl

theorem Reads.byte (c : UInt8) : Reads Parse.byte [c] c := fun _ => rfl

theorem Reads.bytes {n : Nat} (h : us.length = n) : Reads (Parse.bytes n) us us :=
  fun rest => takeBytes_append h rest

end Reads

/-! ## Little-endian numbers -/

@[simp] theorem length_leBytes (k n : Nat) : (leBytes k n).length = k := by
  induction k generalizing n with
  | zero => rfl
  | succ k ih => rw [leBytes, List.length_cons, ih]

theorem leNat_append (us vs : Bytes) :
    leNat (us ++ vs) = leNat us + 256 ^ us.length * leNat vs := by
  induction us with
  | nil => simp [leNat]
  | cons u us ih =>
    have hcons : ∀ ws, leNat (u :: ws) = u.toNat + 256 * leNat ws := fun _ => rfl
    rw [List.cons_append, hcons, hcons, ih, List.length_cons]
    ring

theorem leNat_leBytes (k n : Nat) : leNat (leBytes k n) = n % 256 ^ k := by
  induction k generalizing n with
  | zero => simp [leNat, leBytes, Nat.mod_one]
  | succ k ih =>
    have hcons : leNat (leBytes (k + 1) n) = (UInt8.ofNat n).toNat + 256 *
      leNat (leBytes k (n / 256)) :=
      rfl
    rw [hcons, ih, UInt8.toNat_ofNat', show 2 ^ 8 = 256 from rfl, Nat.pow_succ', Nat.mod_mul]

theorem leBytes_append (j k n : Nat) :
    leBytes (j + k) n = leBytes j n ++ leBytes k (n / 256 ^ j) := by
  induction j generalizing n with
  | zero => simp [leBytes]
  | succ j ih =>
    rw [Nat.succ_add, leBytes, ih, leBytes, List.cons_append, Nat.div_div_eq_div_mul,
      Nat.pow_succ']

theorem signedOf_32 {i : Int} (hlo : -2 ^ 31 ≤ i) (hhi : i < 2 ^ 31) :
    signedOf 32 (i % 2 ^ 32).toNat = i := by
  rw [signedOf]
  split <;> omega

theorem signedOf_64 {i : Int} (hlo : -2 ^ 63 ≤ i) (hhi : i < 2 ^ 63) :
    signedOf 64 (i % 2 ^ 64).toNat = i := by
  rw [signedOf]
  split <;> omega

end Lib.Parse
