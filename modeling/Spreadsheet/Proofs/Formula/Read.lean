import Spreadsheet.Proofs.Formula.Mention

/-!
# What an evaluation reads

A tree may be evaluated with a value for every cell, with values for some cells only, or by an
action that works values out. Which cells an evaluation reads depends on the values it finds,
for the first error ends it. The evaluations agree where they read the same values, and a
circular reference among the cells that are read becomes the value of the tree.
-/

namespace Spreadsheet.Formula

/-- An operator between two values, of which the first error is the result. -/
def Operator.combine (op : Operator) (a b : Value) : Value :=
  match a with
  | .error code => .error code
  | a => match b with
    | .error code => .error code
    | b => op.apply a b

/-- The error of the left operand wins. -/
theorem Operator.combine_of_not_isOk {op : Operator} {a : Value} (h : a.isOk = false) (b : Value) :
    op.combine a b = a := by
  cases a with
  | error code => rfl
  | number x => simp [Value.isOk] at h
  | boolean t => simp [Value.isOk] at h

/-- An error of the right operand is the result if the left one is no error. -/
theorem Operator.combine_circular {op : Operator} {a : Value} (h : a.isOk = true) :
    op.combine a (.error .circular) = .error .circular := by
  cases a with
  | error code => simp [Value.isOk] at h
  | number x => rfl
  | boolean t => rfl

/-- A result that is no error comes from two values that are none. -/
theorem Operator.isOk_of_combine_isOk {op : Operator} {a b : Value}
    (h : (op.combine a b).isOk = true) :
    a.isOk = true ∧ b.isOk = true ∧ op.combine a b = op.apply a b := by
  cases a with
  | error code => simp [combine, Value.isOk] at h
  | number x =>
    cases b with
    | error code => simp [combine, Value.isOk] at h
    | number y => exact ⟨rfl, rfl, rfl⟩
    | boolean t => exact ⟨rfl, rfl, rfl⟩
  | boolean t =>
    cases b with
    | error code => simp [combine, Value.isOk] at h
    | number y => exact ⟨rfl, rfl, rfl⟩
    | boolean u => exact ⟨rfl, rfl, rfl⟩

/-- No operator finds a circle. -/
theorem Operator.apply_ne_circular (op : Operator) {a b : Value} :
    op.apply a b ≠ .error .circular := by
  have hfinite : ∀ x, finite x ≠ .error .circular := by
    intro x
    unfold finite
    split
    · split <;> simp
    · simp
  unfold Operator.apply
  split
  · simp
  · simp
  · exact hfinite _
  · exact hfinite _
  · simp

/-- A result is circular only if an operand is. -/
theorem Operator.combine_ne_circular (op : Operator) {a b : Value} (ha : a ≠ .error .circular)
    (hb : b ≠ .error .circular) : op.combine a b ≠ .error .circular := by
  unfold Operator.combine
  split
  · exact ha
  · split
    · exact hb
    · exact op.apply_ne_circular

/-- A function's value is circular only if its argument is. -/
theorem Unary.apply_ne_circular (f : Unary) {a : Value} (ha : a ≠ .error .circular) :
    f.apply a ≠ .error .circular := by
  unfold Unary.apply
  split
  · simp
  · simp
  · exact ha
  · simp

/-- A function gives a result that is no error to numbers only. -/
theorem Unary.exists_number_of_isOk {f : Unary} {a : Value} (h : (f.apply a).isOk = true) :
    ∃ x, a = .number x := by
  cases a with
  | number x => exact ⟨x, rfl⟩
  | boolean t => cases f <;> simp [apply, Value.isOk] at h
  | error code => cases f <;> simp [apply, Value.isOk] at h

theorem Unary.apply_circular (f : Unary) : f.apply (.error .circular) = .error .circular := by
  cases f <;> rfl

namespace Expr

theorem evaluate_cell {m : Type → Type} [Monad m] {read : Address → m Value} {name : String}
    {a : Address} (h : Address.parse? name = some a) :
    (Expr.cell name).evaluate read = read a := by
  simp only [evaluate, h]

theorem evaluate_cell_of_none {m : Type → Type} [Monad m] {read : Address → m Value}
    {name : String} (h : Address.parse? name = none) :
    (Expr.cell name).evaluate read = pure (.error .missing) := by
  simp only [evaluate, h]

/-- The value of a tree when every cell has a value. -/
def valueUnder (read : Address → Value) (e : Expr) : Value :=
  Id.run (e.evaluate fun a => pure (read a))

theorem valueUnder_cell {read : Address → Value} {name : String} {a : Address}
    (h : Address.parse? name = some a) : (Expr.cell name).valueUnder read = read a := by
  rw [valueUnder, evaluate_cell h]
  rfl

theorem valueUnder_call (read : Address → Value) (f : Unary) (e : Expr) :
    (Expr.call f e).valueUnder read = f.apply (e.valueUnder read) := rfl

/-- The value of an operator combines those of its operands. -/
theorem valueUnder_binary (read : Address → Value) (op : Operator) (left right : Expr) :
    (Expr.binary op left right).valueUnder read =
      op.combine (left.valueUnder read) (right.valueUnder read) := by
  change Id.run ((left.evaluate fun a => pure (read a)) >>= _) = op.combine (Id.run _) (Id.run _)
  generalize (left.evaluate fun a => (pure (read a) : Id Value)) = a
  generalize (right.evaluate fun a => (pure (read a) : Id Value)) = b
  cases a <;> cases b <;> rfl

/-- A call has a value if its argument has one. -/
theorem evaluate_call (f : Address → Option Value) (g : Unary) (e : Expr) :
    (Expr.call g e).evaluate f = (e.evaluate f).map g.apply := by
  change (e.evaluate f >>= fun a => some (g.apply a)) = _
  cases e.evaluate f <;> rfl

/-- With values for some cells only, the right operand matters if the left one has a value that
is no error. -/
theorem evaluate_binary (f : Address → Option Value) (op : Operator) (left right : Expr) :
    (Expr.binary op left right).evaluate f = (left.evaluate f).bind fun a =>
      if a.isOk then (right.evaluate f).map (op.combine a) else some a := by
  change (left.evaluate f >>= _) = _
  cases left.evaluate f with
  | none => rfl
  | some a =>
    cases a with
    | error code => rfl
    | number x =>
      change (right.evaluate f >>= _) = _
      rcases right.evaluate f with _ | (_ | _ | _) <;> rfl
    | boolean t =>
      change (right.evaluate f >>= _) = _
      rcases right.evaluate f with _ | (_ | _ | _) <;> rfl

/-- The cells that an evaluation reads, from left to right, when some cells have values. -/
def reads (f : Address → Option Value) : Expr → List Address
  | .number _ => []
  | .cell name => (Address.parse? name).toList
  | .call _ argument => argument.reads f
  | .binary _ left right =>
    left.reads f ++ if (left.evaluate f).any Value.isOk then right.reads f else []

@[simp]
theorem reads_number (f : Address → Option Value) (x : Float) : (Expr.number x).reads f = [] := rfl

@[simp]
theorem reads_cell (f : Address → Option Value) (name : String) :
    (Expr.cell name).reads f = (Address.parse? name).toList := rfl

theorem reads_binary (f : Address → Option Value) (op : Operator) (left right : Expr) :
    (Expr.binary op left right).reads f =
      left.reads f ++ if (left.evaluate f).any Value.isOk then right.reads f else [] := rfl

/-- Only cells that the tree names are read. -/
theorem exists_name_of_mem_reads {f : Address → Option Value} {e : Expr} {a : Address}
    (h : a ∈ e.reads f) : ∃ name ∈ e.names, Address.parse? name = some a := by
  induction e with
  | number x => simp at h
  | cell name => exact ⟨name, List.mem_singleton_self name, by simpa using h⟩
  | call g e ih => exact ih h
  | binary op left right ihl ihr =>
    rw [reads_binary, List.mem_append] at h
    rcases h with h | h
    · obtain ⟨name, hname, hp⟩ := ihl h
      exact ⟨name, List.mem_append_left _ hname, hp⟩
    · split at h
      · obtain ⟨name, hname, hp⟩ := ihr h
        exact ⟨name, List.mem_append_right _ hname, hp⟩
      · simp at h

/-- An evaluation has a value if all the cells that it reads have one, and it is the value under
any assignment that agrees with them. -/
theorem evaluate_eq_of_reads {f : Address → Option Value} {read : Address → Value} {e : Expr}
    (h : ∀ a ∈ e.reads f, f a = some (read a)) : e.evaluate f = some (e.valueUnder read) := by
  induction e with
  | number x => rfl
  | cell name =>
    cases hp : Address.parse? name with
    | none =>
      rw [valueUnder, evaluate_cell_of_none hp, evaluate_cell_of_none hp]
      rfl
    | some a =>
      rw [evaluate_cell hp, valueUnder_cell hp]
      exact h a (by simp [hp])
  | call g e ih =>
    rw [evaluate_call, valueUnder_call, ih h]
    rfl
  | binary op left right ihl ihr =>
    have hl := ihl fun a ha => h a (List.mem_append_left _ ha)
    rw [evaluate_binary, valueUnder_binary, hl, Option.bind_some]
    by_cases hok : (left.valueUnder read).isOk = true
    · have hr := ihr fun a ha => h a (by
        rw [reads_binary, hl, Option.any_some, if_pos hok]
        exact List.mem_append_right _ ha)
      rw [if_pos hok, hr]
      rfl
    · rw [if_neg hok, Operator.combine_of_not_isOk (Bool.not_eq_true _ ▸ hok)]

/-- An evaluation has a value only if all the cells that it reads have one. -/
theorem isSome_of_mem_reads {f : Address → Option Value} {e : Expr} {a : Address}
    (he : (e.evaluate f).isSome) (ha : a ∈ e.reads f) : (f a).isSome := by
  induction e with
  | number x => simp at ha
  | cell name =>
    have hp : Address.parse? name = some a := by simpa using ha
    rwa [evaluate_cell hp] at he
  | call g e ih =>
    rw [evaluate_call, Option.isSome_map] at he
    exact ih he ha
  | binary op left right ihl ihr =>
    obtain ⟨v, hv⟩ := Option.isSome_iff_exists.mp he
    rw [evaluate_binary, Option.bind_eq_some_iff] at hv
    obtain ⟨w, hw, hv⟩ := hv
    rw [reads_binary, hw, Option.any_some] at ha
    rcases List.mem_append.mp ha with ha | ha
    · exact ihl (by simp [hw]) ha
    · split at ha
      · rename_i hok
        rw [if_pos hok, Option.map_eq_some_iff] at hv
        obtain ⟨u, hu, _⟩ := hv
        exact ihr (by simp [hu]) ha
      · simp at ha

/-- A cell that is read as circular makes the tree circular, if the other cells that are read
are read right. -/
theorem valueUnder_eq_circular {f : Address → Option Value} {read : Address → Value} {e : Expr}
    (h : ∀ a ∈ e.reads f, read a = .error .circular ∨ f a = some (read a))
    (hex : ∃ a ∈ e.reads f, read a = .error .circular) :
    e.valueUnder read = .error .circular := by
  induction e with
  | number x => simp at hex
  | cell name =>
    obtain ⟨a, ha, hread⟩ := hex
    rw [valueUnder_cell (by simpa using ha), hread]
  | call g e ih => rw [valueUnder_call, ih h hex, Unary.apply_circular]
  | binary op left right ihl ihr =>
    have hl : ∀ a ∈ left.reads f, read a = .error .circular ∨ f a = some (read a) :=
      fun a ha => h a (List.mem_append_left _ ha)
    rw [valueUnder_binary]
    by_cases hleft : ∃ a ∈ left.reads f, read a = .error .circular
    · rw [ihl hl hleft]
      rfl
    · -- The left operand is read right, so the circular cell belongs to the right one.
      have hagree : ∀ a ∈ left.reads f, f a = some (read a) := fun a ha =>
        (hl a ha).resolve_left fun hread => hleft ⟨a, ha, hread⟩
      have heval := evaluate_eq_of_reads hagree
      obtain ⟨a, ha, hread⟩ := hex
      rw [reads_binary, heval, Option.any_some] at ha h
      have hright := (List.mem_append.mp ha).resolve_left fun ha' => hleft ⟨a, ha', hread⟩
      split at hright
      · rename_i hok
        rw [if_pos hok] at h
        rw [ihr (fun b hb => h b (List.mem_append_right _ hb)) ⟨a, hright, hread⟩]
        exact Operator.combine_circular hok
      · simp at hright

/-- A tree is circular only if a cell is. -/
theorem evaluate_ne_circular {f : Address → Option Value}
    (h : ∀ a, f a ≠ some (.error .circular)) (e : Expr) :
    e.evaluate f ≠ some (.error .circular) := by
  induction e with
  | number x => exact fun heq => nomatch Option.some.inj heq
  | cell name =>
    cases hp : Address.parse? name with
    | none => simp [evaluate_cell_of_none hp]
    | some a =>
      rw [evaluate_cell hp]
      exact h a
  | call g e ih =>
    rw [evaluate_call]
    cases he : e.evaluate f with
    | none => simp
    | some a =>
      rw [he] at ih
      simpa using g.apply_ne_circular (by simpa using ih)
  | binary op left right ihl ihr =>
    rw [evaluate_binary]
    cases hl : left.evaluate f with
    | none => simp
    | some a =>
      rw [hl] at ihl
      have ha : a ≠ .error .circular := by simpa using ihl
      rw [Option.bind_some]
      split
      · cases hr : right.evaluate f with
        | none => simp
        | some b =>
          rw [hr] at ihr
          simpa using op.combine_ne_circular ha (by simpa using ihr)
      · simpa using ha

/-- More cells with values give no tree another value. -/
theorem evaluate_mono {f g : Address → Option Value} {e : Expr} {v : Value}
    (h : ∀ name ∈ e.names, ∀ a, Address.parse? name = some a → ∀ w, f a = some w → g a = some w)
    (he : e.evaluate f = some v) : e.evaluate g = some v := by
  induction e generalizing v with
  | number x => exact he
  | cell name =>
    cases hp : Address.parse? name with
    | none => rwa [evaluate_cell_of_none hp] at he ⊢
    | some a =>
      rw [evaluate_cell hp] at he ⊢
      exact h name (List.mem_singleton_self name) a hp v he
  | call k e ih =>
    rw [evaluate_call, Option.map_eq_some_iff] at he ⊢
    obtain ⟨a, ha, hv⟩ := he
    exact ⟨a, ih h ha, hv⟩
  | binary op left right ihl ihr =>
    rw [evaluate_binary, Option.bind_eq_some_iff] at he ⊢
    obtain ⟨a, ha, hv⟩ := he
    refine ⟨a, ihl (fun name hname => h name (List.mem_append_left _ hname)) ha, ?_⟩
    split at hv
    · rename_i hok
      obtain ⟨b, hb, hv⟩ := Option.map_eq_some_iff.mp hv
      have hb' := ihr (fun name hname => h name (List.mem_append_right _ hname)) hb
      rw [if_pos hok, hb', Option.map_some, hv]
    · rename_i hok
      rw [if_neg hok, hv]

/-- The right operand is evaluated from where the left one stopped, if that is no error. -/
theorem evaluate_binary_run {σ : Type} (act : Address → StateM σ Value) (op : Operator)
    (left right : Expr) (m : σ) :
    (Expr.binary op left right).evaluate act m =
      if (left.evaluate act m).1.isOk then
        (op.combine (left.evaluate act m).1 (right.evaluate act (left.evaluate act m).2).1,
          (right.evaluate act (left.evaluate act m).2).2)
      else left.evaluate act m := by
  -- Running a sequence runs the rest from the state that its first action leaves.
  have hbind : ∀ {α β : Type} (x : StateM σ α) (k : α → StateM σ β) (m : σ),
      (x >>= k) m = k (x m).1 (x m).2 := fun _ _ _ => rfl
  simp only [evaluate, hbind]
  rcases left.evaluate act m with ⟨_ | _ | _, m'⟩
  · simp only [hbind]
    rcases right.evaluate act m' with ⟨_ | _ | _, m''⟩ <;> rfl
  · simp only [hbind]
    rcases right.evaluate act m' with ⟨_ | _ | _, m''⟩ <;> rfl
  · rfl

/-- An action that gives each cell its value, and keeps a property of the state while it does,
gives a tree its value and keeps the property. -/
theorem evaluate_run {σ : Type} {act : Address → StateM σ Value} {read : Address → Value}
    {good : σ → Prop} {e : Expr}
    (h : ∀ name ∈ e.names, ∀ a, Address.parse? name = some a → ∀ m, good m →
      (act a m).1 = read a ∧ good (act a m).2) {m : σ} (hm : good m) :
    (e.evaluate act m).1 = e.valueUnder read ∧ good (e.evaluate act m).2 := by
  induction e generalizing m with
  | number x => exact ⟨rfl, hm⟩
  | cell name =>
    cases hp : Address.parse? name with
    | none =>
      rw [valueUnder, evaluate_cell_of_none hp, evaluate_cell_of_none hp]
      exact ⟨rfl, hm⟩
    | some a =>
      rw [valueUnder_cell hp, evaluate_cell hp]
      exact h name (List.mem_singleton_self name) a hp m hm
  | call g e ih =>
    obtain ⟨hvalue, hgood⟩ := ih h hm
    rw [valueUnder_call, ← hvalue]
    exact ⟨rfl, hgood⟩
  | binary op left right ihl ihr =>
    obtain ⟨hl, hgood⟩ := ihl (fun name hname => h name (List.mem_append_left _ hname)) hm
    obtain ⟨hr, hgood'⟩ := ihr (fun name hname => h name (List.mem_append_right _ hname)) hgood
    rw [valueUnder_binary, evaluate_binary_run, ← hl, ← hr]
    split
    · exact ⟨rfl, hgood'⟩
    · rename_i hok
      rw [Operator.combine_of_not_isOk (Bool.not_eq_true _ ▸ hok)]
      exact ⟨rfl, hgood⟩

end Expr

/-- The value of a raw text as a formula when every cell has a value. -/
def valueUnder (read : Address → Value) (text : String) : Value :=
  Id.run (evaluate (fun a => pure (read a)) text)

/-- The cells that the evaluation of a raw text reads when some cells have values. -/
def reads (f : Address → Option Value) (text : String) : List Address :=
  match tree? text with
  | some e => e.reads f
  | none => []

/-- Only cells that the text mentions are read. -/
theorem mem_references_of_mem_reads {f : Address → Option Value} {text : String} {a : Address}
    (h : a ∈ reads f text) : a ∈ references text := by
  unfold reads at h
  split at h
  · rename_i e he
    obtain ⟨name, hname, hp⟩ := Expr.exists_name_of_mem_reads h
    exact mem_references_of_tree? he hname hp
  · simp at h

theorem evaluate_eq_of_reads {f : Address → Option Value} {read : Address → Value}
    {text : String} (h : ∀ a ∈ reads f text, f a = some (read a)) :
    evaluate f text = some (valueUnder read text) := by
  unfold valueUnder evaluate
  unfold reads at h
  cases htree : tree? text with
  | none => rfl
  | some e =>
    rw [htree] at h
    exact Expr.evaluate_eq_of_reads h

theorem valueUnder_eq_circular {f : Address → Option Value} {read : Address → Value}
    {text : String} (h : ∀ a ∈ reads f text, read a = .error .circular ∨ f a = some (read a))
    (hex : ∃ a ∈ reads f text, read a = .error .circular) :
    valueUnder read text = .error .circular := by
  unfold valueUnder evaluate
  unfold reads at h hex
  cases htree : tree? text with
  | none => simp [htree] at hex
  | some e =>
    rw [htree] at h hex
    exact Expr.valueUnder_eq_circular h hex

/-- A value that is not circular was found from the right values of the cells that are read. -/
theorem evaluate_eq_of_ne_circular {f : Address → Option Value} {read : Address → Value}
    {text : String}
    (h : ∀ a ∈ references text, read a = .error .circular ∨ f a = some (read a))
    (hne : valueUnder read text ≠ .error .circular) :
    evaluate f text = some (valueUnder read text) := by
  have hreads : ∀ a ∈ reads f text, read a = .error .circular ∨ f a = some (read a) :=
    fun a ha => h a (mem_references_of_mem_reads ha)
  refine evaluate_eq_of_reads fun a ha => (hreads a ha).resolve_left fun hread => hne ?_
  exact valueUnder_eq_circular hreads ⟨a, ha, hread⟩

/-- An evaluation has a value only if all the cells that it reads have one. -/
theorem isSome_of_mem_reads {f : Address → Option Value} {text : String} {a : Address}
    (ht : (evaluate f text).isSome) (ha : a ∈ reads f text) : (f a).isSome := by
  unfold evaluate at ht
  unfold reads at ha
  cases htree : tree? text with
  | none => simp [htree] at ha
  | some e =>
    rw [htree] at ht ha
    exact Expr.isSome_of_mem_reads ht ha

/-- A text is circular only if a cell is. -/
theorem evaluate_ne_circular {f : Address → Option Value}
    (h : ∀ a, f a ≠ some (.error .circular)) (text : String) :
    evaluate f text ≠ some (.error .circular) := by
  unfold evaluate
  cases tree? text with
  | none => simp
  | some e => exact Expr.evaluate_ne_circular h e

theorem evaluate_mono {f g : Address → Option Value} {text : String} {v : Value}
    (h : ∀ a ∈ references text, ∀ w, f a = some w → g a = some w)
    (ht : evaluate f text = some v) : evaluate g text = some v := by
  unfold evaluate at ht ⊢
  cases htree : tree? text with
  | none => simpa [htree] using ht
  | some e =>
    rw [htree] at ht
    exact Expr.evaluate_mono
      (fun name hname a hp => h a (mem_references_of_tree? htree hname hp)) ht

theorem evaluate_run {σ : Type} {act : Address → StateM σ Value} {read : Address → Value}
    {good : σ → Prop} {text : String}
    (h : ∀ a ∈ references text, ∀ m, good m → (act a m).1 = read a ∧ good (act a m).2) {m : σ}
    (hm : good m) :
    (evaluate act text m).1 = valueUnder read text ∧ good (evaluate act text m).2 := by
  unfold valueUnder evaluate
  cases htree : tree? text with
  | none => exact ⟨rfl, hm⟩
  | some e =>
    exact Expr.evaluate_run
      (fun name hname a hp => h a (mem_references_of_tree? htree hname hp)) hm

end Spreadsheet.Formula
