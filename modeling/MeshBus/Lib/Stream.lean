import Mathlib

/-!
# Lib.Stream

Decoders that read items off the front of a growing buffer. `decode buf` is an error, `none` when
the buffer does not hold a whole item yet, or the first item and the bytes after it.

* `Incremental decode`: an item or an error stays what it is when bytes are appended, and an item
  takes at least one byte.
* `drain decode buf`: decode until the buffer holds no whole item, or fails.
* `feed`: append one chunk to what is left and drain again.
* `feedAll_eq_drain`: feeding chunk by chunk is draining all of them at once, so the cuts do not
  matter.
-/

namespace MeshBus

variable {α β ε : Type*}

structure Incremental (decode : List β → Except ε (Option (α × List β))) : Prop where
  shorter : ∀ {buf a rest}, decode buf = .ok (some (a, rest)) → rest.length < buf.length
  item : ∀ {buf a rest} (more : List β), decode buf = .ok (some (a, rest)) →
    decode (buf ++ more) = .ok (some (a, rest ++ more))
  error : ∀ {buf e} (more : List β), decode buf = .error e → decode (buf ++ more) = .error e

/-- The items read so far, and the bytes left over or the first error. -/
structure Drained (α β ε : Type*) where
  items : List α
  left : Except ε (List β)

/-- At most `fuel` items. -/
def drainFor (decode : List β → Except ε (Option (α × List β))) : Nat → List β → Drained α β ε
  | 0, buf => ⟨[], .ok buf⟩
  | fuel + 1, buf =>
    match decode buf with
    | .error e => ⟨[], .error e⟩
    | .ok none => ⟨[], .ok buf⟩
    | .ok (some (a, rest)) =>
      let d := drainFor decode fuel rest
      ⟨a :: d.items, d.left⟩

/-- `while let Some(item) = decode(buf)?`. No more items than bytes can be read. -/
def drain (decode : List β → Except ε (Option (α × List β))) (buf : List β) : Drained α β ε :=
  drainFor decode (buf.length + 1) buf

def feed (decode : List β → Except ε (Option (α × List β))) (d : Drained α β ε) (chunk : List β) :
    Drained α β ε :=
  match d.left with
  | .error _ => d
  | .ok buf =>
    let d' := drain decode (buf ++ chunk)
    ⟨d.items ++ d'.items, d'.left⟩

def feedAll (decode : List β → Except ε (Option (α × List β))) (chunks : List (List β)) :
    Drained α β ε :=
  chunks.foldl (feed decode) ⟨[], .ok []⟩

section Drain

variable {decode : List β → Except ε (Option (α × List β))}

theorem drainFor_succ (hd : Incremental decode) :
    ∀ {fuel : Nat} {buf : List β}, buf.length < fuel →
      drainFor decode (fuel + 1) buf = drainFor decode fuel buf := by
  intro fuel
  induction fuel with
  | zero => intro buf h; omega
  | succ fuel ih =>
    intro buf h
    rw [drainFor, drainFor]
    cases hdec : decode buf with
    | error e => rfl
    | ok r =>
      cases r with
      | none => rfl
      | some r =>
        have := hd.shorter hdec
        simp only
        rw [ih (by omega)]

theorem drainFor_eq_drain (hd : Incremental decode) {fuel : Nat} {buf : List β}
    (h : buf.length < fuel) : drainFor decode fuel buf = drain decode buf := by
  obtain ⟨k, rfl⟩ : ∃ k, fuel = buf.length + 1 + k := ⟨fuel - (buf.length + 1), by omega⟩
  induction k with
  | zero => rfl
  | succ k ih =>
    have hstep : drainFor decode (buf.length + 1 + k + 1) buf =
        drainFor decode (buf.length + 1 + k) buf := drainFor_succ hd (by omega)
    rw [← Nat.add_assoc, hstep]
    exact ih (by omega)

/-- The loop without its bound. -/
theorem drain_eq (hd : Incremental decode) (buf : List β) :
    drain decode buf =
      match decode buf with
      | .error e => ⟨[], .error e⟩
      | .ok none => ⟨[], .ok buf⟩
      | .ok (some (a, rest)) => ⟨a :: (drain decode rest).items, (drain decode rest).left⟩ := by
  rw [drain, drainFor]
  cases hdec : decode buf with
  | error e => rfl
  | ok r =>
    cases r with
    | none => rfl
    | some r =>
      simp only
      rw [drainFor_eq_drain hd (hd.shorter hdec)]

theorem drain_error (hd : Incremental decode) {buf : List β} {e : ε} (h : decode buf = .error e) :
    drain decode buf = ⟨[], .error e⟩ := by
  rw [drain_eq hd, h]

theorem drain_none (hd : Incremental decode) {buf : List β} (h : decode buf = .ok none) :
    drain decode buf = ⟨[], .ok buf⟩ := by
  rw [drain_eq hd, h]

theorem drain_item (hd : Incremental decode) {buf rest : List β} {a : α}
    (h : decode buf = .ok (some (a, rest))) :
    drain decode buf = ⟨a :: (drain decode rest).items, (drain decode rest).left⟩ := by
  rw [drain_eq hd, h]

/-- Induction along the items of a buffer. -/
theorem drain_induction (hd : Incremental decode) {P : List β → Prop}
    (error : ∀ buf e, decode buf = .error e → P buf) (none : ∀ buf, decode buf = .ok none → P buf)
    (item : ∀ buf a rest, decode buf = .ok (some (a, rest)) → P rest → P buf) (buf : List β) :
    P buf := by
  induction hn : buf.length using Nat.strong_induction_on generalizing buf with
  | _ n ih =>
    cases hdec : decode buf with
    | error e => exact error buf e hdec
    | ok r =>
      cases r with
      | none => exact none buf hdec
      | some r => exact item buf r.1 r.2 hdec (ih _ (hn ▸ hd.shorter hdec) r.2 rfl)

/-- Draining, then feeding, is draining the two together. -/
theorem feed_drain (hd : Incremental decode) (buf chunk : List β) :
    feed decode (drain decode buf) chunk = drain decode (buf ++ chunk) := by
  induction buf using drain_induction hd with
  | error buf e h =>
    rw [drain_error hd h, drain_error hd (hd.error chunk h)]
    rfl
  | none buf h =>
    rw [drain_none hd h]
    simp [feed]
  | item buf a rest h ih =>
    rw [drain_item hd h, drain_item hd (hd.item chunk h), ← ih]
    cases hleft : (drain decode rest).left with
    | error e => simp [feed, hleft]
    | ok left => simp [feed, hleft]

/-- Feeding chunk by chunk is draining everything at once. -/
theorem feedAll_eq_drain (hd : Incremental decode) (hnil : decode [] = .ok none)
    (chunks : List (List β)) : feedAll decode chunks = drain decode chunks.flatten := by
  induction chunks using List.reverseRecOn with
  | nil => rw [List.flatten_nil, drain_none hd hnil]; rfl
  | append_singleton chunks chunk ih =>
    rw [feedAll, List.foldl_append, List.flatten_append]
    change feed decode (feedAll decode chunks) chunk = _
    rw [ih, feed_drain hd, List.flatten_singleton]

/-- What was written item by item is read back item by item. -/
theorem drain_flatMap (hd : Incremental decode) {encode : α → List β} {items : List α}
    (h : ∀ a ∈ items, ∀ rest, decode (encode a ++ rest) = .ok (some (a, rest))) (rest : List β) :
    drain decode (items.flatMap encode ++ rest) =
      ⟨items ++ (drain decode rest).items, (drain decode rest).left⟩ := by
  induction items with
  | nil => rfl
  | cons a items ih =>
    have htail := ih fun b hb => h b (List.mem_cons_of_mem _ hb)
    rw [List.flatMap_cons, List.append_assoc, drain_item hd (h a List.mem_cons_self _), htail]
    rfl

/-- Items whose encodings begin a stream of encoded items are the first of them, and the rest of the
stream holds the others and no error. -/
theorem drain_of_flatMap_eq (hd : Incremental decode) (hnil : decode [] = .ok none)
    {encode : α → List β} {items read : List α} {rest : List β}
    (hitems : ∀ a ∈ items, ∀ more, decode (encode a ++ more) = .ok (some (a, more)))
    (hread : ∀ a ∈ read, ∀ more, decode (encode a ++ more) = .ok (some (a, more)))
    (h : items.flatMap encode = read.flatMap encode ++ rest) :
    items = read ++ (drain decode rest).items ∧ (drain decode rest).left = .ok [] := by
  have hall := drain_flatMap hd hitems []
  rw [List.append_nil, h, drain_flatMap hd hread, drain_none hd hnil, List.append_nil] at hall
  injection hall with hitems hleft
  exact ⟨hitems.symm, hleft⟩

/-- If the bytes an item took are its encoding, the items and what is left make up the input. -/
theorem drain_sound (hd : Incremental decode) {encode : α → List β}
    (h : ∀ buf a rest, decode buf = .ok (some (a, rest)) → buf = encode a ++ rest)
    (buf : List β) :
    ∃ rest, buf = (drain decode buf).items.flatMap encode ++ rest ∧
      ∀ left, (drain decode buf).left = .ok left → left = rest := by
  induction buf using drain_induction hd with
  | error buf e hdec =>
    rw [drain_error hd hdec]
    exact ⟨buf, rfl, by simp⟩
  | none buf hdec =>
    rw [drain_none hd hdec]
    exact ⟨buf, rfl, by simp⟩
  | item buf a rest hdec ih =>
    obtain ⟨rest', heq, hleft⟩ := ih
    rw [drain_item hd hdec]
    refine ⟨rest', ?_, hleft⟩
    rw [h buf a rest hdec, List.flatMap_cons, List.append_assoc, ← heq]

end Drain

end MeshBus
