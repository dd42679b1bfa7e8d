import Mathlib.Data.List.Basic
import StructuralTypes.Level
import StructuralTypes.Proofs.Outcomes

/-! The passes over one level, taken piece by piece. A pass carries one stretch of items
into another when it does so wherever the stretch stands and whatever follows it, as long
as what follows does not reach back over it. Stretches that are carried one after the
other are carried together, so a level is read by reading its pieces. -/

namespace StructuralTypes

/-! ### Readings that succeed -/

namespace Reading

/-- A reading that ends with a result, whatever warnings it starts with. -/
def Gives {α : Type} (r : Reading α) (a : α) : Prop :=
  ∀ warnings, ∃ added, r.run warnings = (.ok a, added)

variable {α β : Type}

theorem run_bind (r : Reading α) (f : α → Reading β) (warnings : List Warning) :
    (r >>= f).run warnings = match r.run warnings with
      | (.ok a, added) => (f a).run added
      | (.error e, added) => (.error e, added) := by
  change StateT.run (ExceptT.run (r >>= f)) warnings = _
  rw [ExceptT.run_bind, StateT.run_bind]
  rcases h : StateT.run r.run warnings with ⟨result, added⟩
  have hr : r.run warnings = (result, added) := h
  rw [hr]
  cases result <;> rfl

theorem gives_pure (a : α) : Gives (pure a) a := fun warnings => ⟨warnings, rfl⟩

theorem gives_warn (w : Warning) : Gives (warn w) () := fun warnings => ⟨warnings ++ [w], rfl⟩

theorem Gives.bind {r : Reading α} {f : α → Reading β} {a : α} {b : β} (h : Gives r a)
    (hf : Gives (f a) b) : Gives (r >>= f) b := by
  intro warnings
  obtain ⟨middle, hr⟩ := h warnings
  obtain ⟨added, hb⟩ := hf middle
  exact ⟨added, by rw [run_bind, hr]; exact hb⟩

theorem gives_ofExcept_iff {e : Except Fault α} {a : α} :
    Gives (Reading.ofExcept e) a ↔ e = .ok a := by
  constructor
  · intro h
    obtain ⟨added, hr⟩ := h []
    exact congrArg Prod.fst hr
  · rintro rfl
    exact fun warnings => ⟨warnings, rfl⟩

theorem Gives.run_eq {r : Reading α} {a : α} (h : Gives r a) (warnings : List Warning) :
    (r.run warnings).1 = .ok a := by
  obtain ⟨added, hr⟩ := h warnings
  rw [hr]

end Reading

namespace Item

open Reading

/-! ### Carrying stretches of items -/

/-- A pass, with what may stand right behind a stretch that it has finished with. -/
structure Pass where
  run : List Item → Reading (List Item)
  fresh : List Item → Prop

/-- A pass turns `xs` into `ys` wherever it comes upon them. -/
def Pass.Carries (p : Pass) (xs ys : List Item) : Prop :=
  ∀ rest, p.fresh rest →
    p.fresh (xs ++ rest) ∧ ∀ out, Gives (p.run rest) out → Gives (p.run (xs ++ rest)) (ys ++ out)

namespace Pass

variable {p : Pass}

theorem carries_nil : p.Carries [] [] := fun _ h => ⟨h, fun _ ho => ho⟩

theorem Carries.append {xs ys xs' ys' : List Item} (h : p.Carries xs ys)
    (h' : p.Carries xs' ys') : p.Carries (xs ++ xs') (ys ++ ys') := by
  intro rest hr
  obtain ⟨hf', ho'⟩ := h' rest hr
  obtain ⟨hf, ho⟩ := h (xs' ++ rest) hf'
  rw [List.append_assoc]
  refine ⟨hf, fun out hout => ?_⟩
  rw [List.append_assoc]
  exact ho _ (ho' _ hout)

theorem Carries.flatMap {α : Type} {f g : α → List Item} {items : List α}
    (h : ∀ a ∈ items, p.Carries (f a) (g a)) :
    p.Carries (items.flatMap f) (items.flatMap g) := by
  induction items with
  | nil => exact carries_nil
  | cons a rest ih =>
    rw [List.forall_mem_cons] at h
    exact h.1.append (ih h.2)

end Pass

/-! ### Markers -/

/-- The pass that resolves the markers of a kind. -/
def prefixPass (kind : TokenKind) (read : Item → Reading Node) : Pass where
  run := resolvePrefix kind read
  fresh _ := True

theorem isToken_eq_false {item : Item} (h : item.isNoOperand = false) : item.isToken = false := by
  cases item with
  | token t => cases h
  | _ => rfl

section Prefix

variable {kind : TokenKind} {read : Item → Reading Node}

theorem resolvePrefix_cons {item : Item} (h : item.isKind kind = false) (rest : List Item) :
    resolvePrefix kind read (item :: rest)
      = (do return item :: (← resolvePrefix kind read rest)) := by
  cases item with
  | token t =>
    have ht : t.kind ≠ kind := by simpa [isKind] using h
    rw [resolvePrefix.eq_def]
    simp only [if_neg ht]
  | _ => rfl

/-- What holds of every way in which the pass over markers can go on and end holds of the pass. -/
theorem resolvePrefix_induction {motive : List Item → Reading (List Item) → Prop}
    (nil : motive [] (pure []))
    (fault : ∀ {items surface}, motive items (throw (.ofCause (.markerWithoutType surface))))
    (other : ∀ {item rest r}, item.isKind kind = false → motive rest r →
      motive (item :: rest) (do return item :: (← r)))
    (marked : ∀ {t operand rest r}, t.kind = kind → operand.isNoOperand = false → motive rest r →
      motive (token t :: operand :: rest) (do
        let n ← read operand
        return node n :: (← r))) :
    ∀ items, motive items (resolvePrefix kind read items)
  | [] => nil
  | item :: rest => by
    cases hk : item.isKind kind with
    | false =>
      rw [resolvePrefix_cons hk]
      exact other hk (resolvePrefix_induction nil fault other marked rest)
    | true =>
      cases item with
      | token t =>
        have ht : t.kind = kind := by simpa [isKind] using hk
        rw [resolvePrefix.eq_def]
        simp only [if_pos ht]
        cases rest with
        | nil => exact fault
        | cons operand rest =>
          cases ho : operand.isNoOperand with
          | true =>
            simp only [ho, if_true]
            exact fault
          | false =>
            simp only [ho, Bool.false_eq_true, if_false]
            exact marked ht ho (resolvePrefix_induction nil fault other marked rest)
      | _ => cases hk

/-- What is no marker of the kind stays. -/
theorem prefixPass_carries_one {item : Item} (h : item.isKind kind = false) :
    (prefixPass kind read).Carries [item] [item] := by
  refine fun rest _ => ⟨trivial, fun out ho => ?_⟩
  change Gives (resolvePrefix kind read (item :: rest)) (item :: out)
  rw [resolvePrefix_cons h]
  exact ho.bind (gives_pure _)

/-- A marker and its operand become one type. -/
theorem prefixPass_carries_marked {t : Token} {operand : Item} {n : Node} (ht : t.kind = kind)
    (ho : operand.isNoOperand = false) (hr : Gives (read operand) n) :
    (prefixPass kind read).Carries [token t, operand] [node n] := by
  refine fun rest _ => ⟨trivial, fun out hout => ?_⟩
  change Gives (resolvePrefix kind read (token t :: operand :: rest)) (node n :: out)
  rw [resolvePrefix.eq_def]
  simp only [if_pos ht, ho, Bool.false_eq_true, if_false]
  change Gives (resolvePrefix kind read rest) out at hout
  exact hr.bind (hout.bind (gives_pure _))

end Prefix

/-- Whether items begin with a token of a kind. -/
def beginsWith (kind : TokenKind) (items : List Item) : Bool :=
  items.head?.any (isKind kind)

/-! ### Suffixes -/

/-- The pass that wraps what stands before array suffixes. -/
def suffixPass : Pass where
  run items := Reading.ofExcept (resolveSuffixes none items)
  fresh items := beginsWith .arraySuffix items = false

theorem resolveSuffixes_fresh {rest : List Item} (h : beginsWith .arraySuffix rest = false)
    (last : Option Item) :
    resolveSuffixes last rest = (do return last.toList ++ (← resolveSuffixes none rest)) := by
  cases rest with
  | nil => simp [resolveSuffixes]
  | cons item rest =>
    have hi : item.isKind .arraySuffix = false := by simpa [beginsWith] using h
    simp [resolveSuffixes, hi]

/-- A type before a suffix is wrapped in an array, unless it is the bare existential. -/
theorem resolveSuffixes_suffix {item : Item} {n : Node} {t : Token} (ht : t.kind = .arraySuffix)
    (hi : item.isToken = false) (hs : item ≠ node (.leaf Node.existential))
    (hn : item.asType = .ok n) (rest : List Item) :
    resolveSuffixes (some item) (token t :: rest)
      = resolveSuffixes (some (node (.array n))) rest := by
  have hk : (token t).isKind .arraySuffix = true := by simp [isKind, ht]
  rw [resolveSuffixes.eq_def]
  simp only [hk, Bool.not_true, Bool.false_eq_true, if_false]
  cases item with
  | token t => simp [isToken] at hi
  | node m =>
    obtain rfl : m = n := by simpa [asType, pure, Except.pure] using hn
    cases m with
    | leaf name =>
      have hname : name ≠ Node.existential := fun e => hs (by rw [e])
      simp only [hname, if_false]
    | _ => simp [asType]
  | group items => simp only [hn]; rfl
  | body properties indexer => simp only [hn]; rfl
  | stray v => simp only [hn]; rfl

/-- A type under a number of array types. -/
def arrayOf (depth : Nat) (n : Node) : Node :=
  (List.replicate depth ()).foldl (fun n _ => .array n) n

theorem resolveSuffixes_replicate {t : Token} (ht : t.kind = .arraySuffix) (depth : Nat)
    {n : Node} (hn : n ≠ .leaf Node.existential) (rest : List Item) :
    resolveSuffixes (some (node n)) (List.replicate depth (token t) ++ rest)
      = resolveSuffixes (some (node (arrayOf depth n))) rest := by
  induction depth generalizing n with
  | zero => rfl
  | succ depth ih =>
    have hi : node n ≠ node (.leaf Node.existential) := fun e => hn (by injection e)
    rw [List.replicate_succ, List.cons_append, resolveSuffixes_suffix ht rfl hi rfl]
    exact ih (by simp)

/-- What the pass over suffixes makes of an item: it goes on to the next one, or wraps the item
before the suffix. -/
theorem resolveSuffixes_cases {last : Option Item} {item : Item} {rest out : List Item}
    (h : resolveSuffixes last (item :: rest) = .ok out) :
    (item.isKind .arraySuffix = false
        ∧ ∃ more, resolveSuffixes (some item) rest = .ok more ∧ out = last.toList ++ more)
      ∨ ∃ t previous, item = token t ∧ t.kind = .arraySuffix ∧ last = some previous
        ∧ previous.isToken = false
        ∧ ((previous = node (.leaf Node.existential)
              ∧ ∃ more, resolveSuffixes (some (node (.leaf "array"))) rest = .ok more
                ∧ out = previous :: more)
          ∨ ∃ n, previous.asType = .ok n
              ∧ resolveSuffixes (some (node (.array n))) rest = .ok out) := by
  rw [resolveSuffixes.eq_def] at h
  cases hk : item.isKind .arraySuffix with
  | false =>
    simp only [hk, Bool.not_false, if_true] at h
    obtain ⟨more, hmore, h⟩ := Outcome.ok_of_bind h
    cases h
    exact .inl ⟨rfl, more, hmore, rfl⟩
  | true =>
    simp only [hk, Bool.not_true, Bool.false_eq_true, if_false] at h
    cases item with
    | token t =>
      have ht : t.kind = .arraySuffix := by simpa [isKind] using hk
      rcases last with _ | ⟨u | n | items | ⟨ps, ix⟩ | v⟩
      · cases h
      · cases h
      · refine .inr ⟨t, _, rfl, ht, rfl, rfl, ?_⟩
        cases n with
        | leaf name =>
          by_cases hn : name = Node.existential
          · simp only [hn, if_true] at h
            obtain ⟨more, hmore, h⟩ := Outcome.ok_of_bind h
            cases h
            exact .inl ⟨by rw [hn], more, hmore, by rw [hn]⟩
          · simp only [hn, if_false] at h
            exact .inr ⟨_, rfl, h⟩
        | _ => exact .inr (Outcome.ok_of_bind h)
      · exact .inr ⟨t, _, rfl, ht, rfl, rfl, .inr (Outcome.ok_of_bind h)⟩
      · exact .inr ⟨t, _, rfl, ht, rfl, rfl, .inr (Outcome.ok_of_bind h)⟩
      · exact .inr ⟨t, _, rfl, ht, rfl, rfl, .inr (Outcome.ok_of_bind h)⟩
    | _ => cases hk

/-- What is no suffix stays when none follows it. -/
theorem suffixPass_carries_one {item : Item} (h : item.isKind .arraySuffix = false) :
    suffixPass.Carries [item] [item] := by
  refine fun rest hr => ⟨by simpa [suffixPass, beginsWith] using h, fun out ho => ?_⟩
  have ho := gives_ofExcept_iff.1 ho
  refine gives_ofExcept_iff.2 ?_
  simp [resolveSuffixes, h, resolveSuffixes_fresh hr (some item), ho]

/-- A type with suffixes behind it becomes one array type under as many others. -/
theorem suffixPass_carries_suffixes {item : Item} {n : Node} {t : Token} (depth : Nat)
    (ht : t.kind = .arraySuffix) (hi : item.isToken = false)
    (hs : item ≠ node (.leaf Node.existential)) (hn : item.asType = .ok n) :
    suffixPass.Carries (item :: List.replicate (depth + 1) (token t))
      [node (arrayOf (depth + 1) n)] := by
  have hk : item.isKind .arraySuffix = false := by
    cases item with
    | token t => simp [isToken] at hi
    | _ => rfl
  refine fun rest hr => ⟨by simpa [suffixPass, beginsWith] using hk, fun out ho => ?_⟩
  have ho := gives_ofExcept_iff.1 ho
  refine gives_ofExcept_iff.2 ?_
  have hrun : resolveSuffixes (some item) (List.replicate (depth + 1) (token t) ++ rest)
      = .ok (node (arrayOf (depth + 1) n) :: out) := by
    rw [List.replicate_succ, List.cons_append, resolveSuffixes_suffix ht hi hs hn,
      resolveSuffixes_replicate ht depth (by simp), resolveSuffixes_fresh hr, ho]
    rfl
  simp [resolveSuffixes, hk, hrun]

/-! ### Operators -/

/-- The pass that folds the chains of one operator. -/
def foldPass (kind : TokenKind) (make : List Node → Node) : Pass where
  run items := Reading.ofExcept (foldOperator kind make .nothing items)
  fresh items := beginsWith kind items = false

section Fold

variable {kind : TokenKind} {make : List Node → Node}

theorem foldOperator_cons {item : Item} (h : item.isKind kind = false) (pending : Pending)
    (rest : List Item) :
    foldOperator kind make pending (item :: rest)
      = (do return pending.flush make ++ (← foldOperator kind make (.item item) rest)) := by
  cases item with
  | token t =>
    have ht : t.kind ≠ kind := by simpa [isKind] using h
    rw [foldOperator.eq_def]
    simp only [if_neg ht]
  | _ => rfl

theorem foldOperator_fresh {rest : List Item} (h : beginsWith kind rest = false)
    (pending : Pending) :
    foldOperator kind make pending rest
      = (do return pending.flush make ++ (← foldOperator kind make .nothing rest)) := by
  cases rest with
  | nil => simp [foldOperator, Pending.flush]
  | cons item rest =>
    have hi : item.isKind kind = false := by simpa [beginsWith] using h
    rw [foldOperator_cons hi, foldOperator_cons hi]
    simp [Pending.flush]

theorem foldOperator_operator {t : Token} {operand : Item} {n : Node} {members : List Node}
    {pending : Pending} (ht : t.kind = kind) (ho : operand.isNoOperand = false)
    (hm : pending.members t.text = .ok members) (hn : operand.asType = .ok n)
    (rest : List Item) :
    foldOperator kind make pending (token t :: operand :: rest)
      = foldOperator kind make (.chain (members ++ [n])) rest := by
  rw [foldOperator.eq_def]
  simp only [if_pos ht, ho, Bool.false_eq_true, if_false, hm, hn]
  rfl

/-- What the pass over an operator makes of an item: it goes on to the next one, or the chain
before the operator takes its right operand. -/
theorem foldOperator_cases {pending : Pending} {item : Item} {rest out : List Item}
    (h : foldOperator kind make pending (item :: rest) = .ok out) :
    (item.isKind kind = false ∧ ∃ more, foldOperator kind make (.item item) rest = .ok more
        ∧ out = pending.flush make ++ more)
      ∨ ∃ t operand behind members n, item = token t ∧ t.kind = kind ∧ rest = operand :: behind
        ∧ operand.isToken = false ∧ pending.members t.text = .ok members ∧ operand.asType = .ok n
        ∧ foldOperator kind make (.chain (members ++ [n])) behind = .ok out := by
  cases hk : item.isKind kind with
  | false =>
    rw [foldOperator_cons hk] at h
    obtain ⟨more, hmore, h⟩ := Outcome.ok_of_bind h
    cases h
    exact .inl ⟨rfl, more, hmore, rfl⟩
  | true =>
    cases item with
    | token t =>
      have ht : t.kind = kind := by simpa [isKind] using hk
      rw [foldOperator.eq_def] at h
      simp only [if_pos ht] at h
      cases rest with
      | nil => cases h
      | cons operand rest =>
        cases ho : operand.isNoOperand with
        | true =>
          simp only [ho, if_true] at h
          cases h
        | false =>
          simp only [ho, Bool.false_eq_true, if_false] at h
          obtain ⟨members, hm, h⟩ := Outcome.ok_of_bind h
          obtain ⟨n, hn, h⟩ := Outcome.ok_of_bind h
          exact .inr ⟨t, operand, rest, members, n, rfl, ht, rfl, isToken_eq_false ho, hm, hn, h⟩
    | _ => cases hk

/-- What is no operator stays when none follows it. -/
theorem foldPass_carries_one {item : Item} (h : item.isKind kind = false) :
    (foldPass kind make).Carries [item] [item] := by
  refine fun rest hr => ⟨by simpa [foldPass, beginsWith] using h, fun out ho => ?_⟩
  have ho := gives_ofExcept_iff.1 ho
  refine gives_ofExcept_iff.2 ?_
  rw [List.singleton_append, foldOperator_cons h, foldOperator_fresh hr, ho]
  rfl

/-- Operators with their operands prolong the chain before them. -/
theorem foldOperator_chain {α : Type} {t : Token} {item : α → Item} {type : α → Node}
    (ht : t.kind = kind) {operands : List α}
    (h : ∀ a ∈ operands, (item a).isNoOperand = false ∧ (item a).asType = .ok (type a))
    (members : List Node) (rest : List Item) :
    foldOperator kind make (.chain members)
        (operands.flatMap (fun a => [token t, item a]) ++ rest)
      = foldOperator kind make (.chain (members ++ operands.map type)) rest := by
  induction operands generalizing members with
  | nil => simp
  | cons a operands ih =>
    rw [List.forall_mem_cons] at h
    rw [List.flatMap_cons, List.append_assoc, List.cons_append, List.cons_append,
      foldOperator_operator ht h.1.1 rfl h.1.2, List.nil_append, ih h.2]
    simp

/-- A chain of two operands or more becomes one type. -/
theorem foldPass_carries_chain {α : Type} (t : Token) (item : α → Item) (type : α → Node)
    {first : Item} {n : Node} {operands : List α} (ht : t.kind = kind)
    (hf : first.isToken = false) (hn : first.asType = .ok n) (hne : operands ≠ [])
    (h : ∀ a ∈ operands, (item a).isNoOperand = false ∧ (item a).asType = .ok (type a)) :
    (foldPass kind make).Carries (first :: operands.flatMap fun a => [token t, item a])
      [node (make (n :: operands.map type))] := by
  have hk : first.isKind kind = false := by
    cases first with
    | token t => simp [isToken] at hf
    | _ => rfl
  have hm : Pending.members t.text (.item first) = .ok [n] := by
    cases first with
    | token t => simp [isToken] at hf
    | _ => simp only [Pending.members, hn]; rfl
  refine fun rest hr => ⟨by simpa [foldPass, beginsWith] using hk, fun out ho => ?_⟩
  have ho := gives_ofExcept_iff.1 ho
  refine gives_ofExcept_iff.2 ?_
  obtain ⟨a, operands, rfl⟩ := List.exists_cons_of_ne_nil hne
  rw [List.forall_mem_cons] at h
  rw [List.cons_append, foldOperator_cons hk, List.flatMap_cons, List.append_assoc,
    List.cons_append, List.cons_append, foldOperator_operator ht h.1.1 hm h.1.2,
    List.nil_append, foldOperator_chain ht h.2, foldOperator_fresh hr, ho]
  rfl

end Fold

/-! ### All passes -/

/-- The type that an array marker makes of its operand. -/
def readArray (item : Item) : Reading Node :=
  return .array (← Reading.ofExcept (asType item))

/-- The type that a tuple marker makes of its operand. -/
def readTuple (item : Item) : Reading Node :=
  return .tuple (← Reading.ofExcept (asElements item))

/-- The passes before commas are dropped, in order. -/
def passes : List Pass :=
  [prefixPass .exactShape (readShape true), prefixPass .shape (readShape false),
   prefixPass .array readArray, prefixPass .tuple readTuple, suffixPass,
   prefixPass .optional readOptional, foldPass .intersection .intersection,
   foldPass .union .union]

theorem resolve_eq (items : List Item) :
    resolve items
      = passes.foldlM (fun items p => p.run items) items >>= fun items =>
          Reading.ofExcept (close (items.filter (!·.isKind .comma))) := by
  simp only [passes, List.foldlM_cons, List.foldlM_nil, bind_assoc, pure_bind]
  rfl

/-- What a sequence of passes turns `xs` into wherever it stands. -/
def Carried : List Pass → List Item → List Item → Prop
  | [], xs, ys => xs = ys
  | p :: rest, xs, ys => ∃ zs, p.Carries xs zs ∧ Carried rest zs ys

namespace Carried

variable {ps : List Pass}

theorem nil : Carried ps [] [] := by
  induction ps with
  | nil => rfl
  | cons p rest ih => exact ⟨[], Pass.carries_nil, ih⟩

theorem append {xs ys xs' ys' : List Item} (h : Carried ps xs ys) (h' : Carried ps xs' ys') :
    Carried ps (xs ++ xs') (ys ++ ys') := by
  induction ps generalizing xs xs' with
  | nil => exact congrArg₂ _ h h'
  | cons p rest ih =>
    obtain ⟨zs, hz, hr⟩ := h
    obtain ⟨zs', hz', hr'⟩ := h'
    exact ⟨zs ++ zs', hz.append hz', ih hr hr'⟩

theorem flatMap {α : Type} {f g : α → List Item} {items : List α}
    (h : ∀ a ∈ items, Carried ps (f a) (g a)) :
    Carried ps (items.flatMap f) (items.flatMap g) := by
  induction items with
  | nil => exact nil
  | cons a rest ih =>
    rw [List.forall_mem_cons] at h
    exact append h.1 (ih h.2)

/-- A whole level goes through the passes as its pieces do. -/
theorem gives {xs ys : List Item} (h : Carried ps xs ys)
    (hp : ∀ p ∈ ps, p.fresh [] ∧ Gives (p.run []) []) :
    Gives (ps.foldlM (fun items p => p.run items) xs) ys := by
  induction ps generalizing xs with
  | nil => exact h ▸ gives_pure _
  | cons p rest ih =>
    obtain ⟨zs, hz, hr⟩ := h
    rw [List.forall_mem_cons] at hp
    have hrun := (hz [] hp.1.1).2 [] hp.1.2
    rw [List.append_nil, List.append_nil] at hrun
    rw [List.foldlM_cons]
    exact hrun.bind (ih hr hp.2)

end Carried

theorem passes_nil : ∀ p ∈ passes, p.fresh [] ∧ Gives (p.run []) [] := by
  simp only [passes, List.forall_mem_cons, List.not_mem_nil, false_imp_iff, implies_true,
    and_true]
  exact ⟨⟨trivial, gives_pure _⟩, ⟨trivial, gives_pure _⟩, ⟨trivial, gives_pure _⟩,
    ⟨trivial, gives_pure _⟩, ⟨rfl, gives_ofExcept_iff.2 rfl⟩, ⟨trivial, gives_pure _⟩,
    ⟨rfl, gives_ofExcept_iff.2 rfl⟩, ⟨rfl, gives_ofExcept_iff.2 rfl⟩⟩

/-- A level is read once its items went through the passes and are closed. -/
theorem gives_resolve {xs ys : List Item} {item : Item} (h : Carried passes xs ys)
    (hc : close (ys.filter (!·.isKind .comma)) = .ok item) : Gives (resolve xs) item := by
  rw [resolve_eq]
  exact (h.gives passes_nil).bind (gives_ofExcept_iff.2 hc)

end Item

end StructuralTypes
