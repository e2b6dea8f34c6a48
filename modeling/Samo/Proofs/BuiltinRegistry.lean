import Samo.Proofs.Answers
import Samo.Proofs.Firsts
import Samo.SymbolTable
import Mathlib.Data.List.Forall2
import Mathlib.Data.List.Induction

/-!
# Libraries and registries

A library is registered exactly if it is `Sound`: each signature is one that a function can have,
and the signatures of one name agree in their result and differ in their parameters. The registry
then `Holds` it: the names in the order of their first signatures, and for each name the overloads
in the order of its signatures. Registration keeps this one signature at a time (`Holds.register`),
and the whole library follows by induction (`ofLibrary_cases`). The parameters in letters start the
descriptor of one overload at most, so a look-up by types is never ambiguous (`Distinct.find?`).
-/

namespace Samo

/-! ## Signatures -/

theorem Ty.result?_ty (type : TypeName) : type.ty.result? = some type := by
  cases type <;> rfl

theorem TypeName.ty_injective {a b : TypeName} (same : a.ty = b.ty) : a = b :=
  Option.some.inj (by rw [← Ty.result?_ty a, same, Ty.result?_ty])

namespace Signature

/-- A signature that a function can have. -/
structure Valid (s : Signature) : Prop where
  params : ∀ t ∈ s.params, ∃ type : ValueType, t = .value type
  returns : ∃ type : TypeName, s.returns = type.ty

variable {s s' : Signature} {f f' : Function}

theorem Describes.valid (describes : s.Describes f) : s.Valid := by
  refine ⟨fun t member => ?_, f.returns, describes.returns.symm⟩
  rw [← describes.params, Function.paramTys] at member
  obtain ⟨type, -, rfl⟩ := List.mem_map.mp member
  exact ⟨type, rfl⟩

theorem exists_parameters (name : String) {ts : List Ty} (index : Nat)
    (values : ∀ t ∈ ts, ∃ type : ValueType, t = .value type) :
    ∃ params, parameters name index ts = .ok params := by
  induction ts generalizing index with
  | nil => exact ⟨[], rfl⟩
  | cons t ts ih =>
      obtain ⟨type, rfl⟩ := values t List.mem_cons_self
      obtain ⟨rest, made⟩ := ih (index + 1) fun t member =>
        values t (List.mem_cons_of_mem _ member)
      refine ⟨⟨s!"arg{index}", type⟩ :: rest, ?_⟩
      rw [parameters, made]
      rfl

theorem exists_function (valid : s.Valid) : ∃ f, s.function = .ok f := by
  obtain ⟨params, made⟩ := exists_parameters s.name 0 valid.params
  obtain ⟨type, returns⟩ := valid.returns
  refine ⟨{ name := s.name, line := 0, params, returns := type }, ?_⟩
  rw [function, made, returns]
  dsimp only [bind, Except.bind, Function.create]
  rw [Ty.result?_ty]

theorem Describes.paramTypes_iff (describes : s.Describes f) (describes' : s'.Describes f') :
    f.paramTypes = f'.paramTypes ↔ s.params = s'.params := by
  rw [← describes.params, ← describes'.params, Function.paramTys, Function.paramTys]
  exact (List.map_inj_right fun _ _ same => Ty.value.inj same).symm

theorem Describes.returns_iff (describes : s.Describes f) (describes' : s'.Describes f') :
    f.returns = f'.returns ↔ s.returns = s'.returns := by
  rw [← describes.returns, ← describes'.returns]
  exact ⟨congrArg _, TypeName.ty_injective⟩

end Signature

/-! ## Libraries -/

namespace Library

/-- A library without a mistake. -/
structure Sound (library : Library) : Prop where
  valid : ∀ s ∈ library, s.Valid
  shared : ∀ s ∈ library, ∀ s' ∈ library, s.name = s'.name → s.returns = s'.returns
  distinct : library.Pairwise fun s s' => s.name = s'.name → s.params ≠ s'.params

/-- A signature that a library can take as its last one. -/
structure Fits (library : Library) (s : Signature) : Prop where
  valid : s.Valid
  shared : ∀ s' ∈ library, s'.name = s.name → s'.returns = s.returns
  distinct : ∀ s' ∈ library, s'.name = s.name → s'.params ≠ s.params

theorem sound_append_iff {library : Library} {s : Signature} :
    Sound (library ++ [s]) ↔ Sound library ∧ Fits library s := by
  constructor
  · intro sound
    have last : s ∈ library ++ [s] := List.mem_append_right _ (List.mem_singleton_self s)
    obtain ⟨distinct, -, apart⟩ := List.pairwise_append.mp sound.distinct
    refine ⟨⟨fun x member => ?_, fun x member y member' => ?_, distinct⟩, ?_, fun x member => ?_,
      fun x member => apart x member s (List.mem_singleton_self s)⟩
    · exact sound.valid x (List.mem_append_left _ member)
    · exact sound.shared x (List.mem_append_left _ member) y (List.mem_append_left _ member')
    · exact sound.valid s last
    · exact sound.shared x (List.mem_append_left _ member) s last
  · rintro ⟨sound, fits⟩
    refine ⟨fun x member => ?_, fun x member y member' => ?_,
      List.pairwise_append.mpr ⟨sound.distinct, List.pairwise_singleton _ s, ?_⟩⟩
    · rcases List.mem_append.mp member with member | member
      · exact sound.valid x member
      · exact List.mem_singleton.mp member ▸ fits.valid
    · intro same
      rcases List.mem_append.mp member with old | new <;>
        rcases List.mem_append.mp member' with old' | new'
      · exact sound.shared x old y old' same
      · obtain rfl := List.mem_singleton.mp new'
        exact fits.shared x old same
      · obtain rfl := List.mem_singleton.mp new
        exact (fits.shared y old' same.symm).symm
      · rw [List.mem_singleton.mp new, List.mem_singleton.mp new']
    · intro x member y last
      obtain rfl := List.mem_singleton.mp last
      exact fits.distinct x member

end Library

/-! ## Registration -/

theorem exists_of_mem_right {α β : Type} {related : α → β → Prop} {l : List α} {l' : List β}
    (paired : List.Forall₂ related l l') {b : β} (member : b ∈ l') : ∃ a ∈ l, related a b := by
  induction paired with
  | nil => cases member
  | cons here _ ih =>
      rcases List.mem_cons.mp member with rfl | member
      · exact ⟨_, List.mem_cons_self, here⟩
      · obtain ⟨a, listed, there⟩ := ih member
        exact ⟨a, List.mem_cons_of_mem _ listed, there⟩

namespace Registry

/-- A registry lists a library: each name once, and the functions of a name's signatures. -/
structure Holds (r : Registry) (library : Library) : Prop where
  names : Firsts (library.map (·.name)) r.names
  overloads : ∀ name,
    List.Forall₂ Signature.Describes (library.filter (·.name = name)) (r.overloads name)

variable {r r' : Registry} {library : Library} {s : Signature} {f : Function} {name : String}

theorem Holds.empty : Registry.empty.Holds [] := ⟨.nil, fun _ => .nil⟩

theorem Holds.gains (holds : r.Holds library) (describes : s.Describes f) (gains : r.Gains f r') :
    r'.Holds (library ++ [s]) := by
  refine ⟨?_, fun name => ?_⟩
  · rw [List.map_append, List.map_singleton, gains.names, describes.name]
    split
    · next known => exact holds.names.again known
    · next new => exact holds.names.add new
  · rw [List.filter_append, gains.overloads, describes.name]
    split
    · next same =>
      rw [List.filter_cons_of_pos (by simpa using same.symm), List.filter_nil]
      exact List.rel_append (holds.overloads name) (.cons describes .nil)
    · next other =>
      rw [List.filter_cons_of_neg (by simpa using Ne.symm other), List.filter_nil,
        List.append_nil]
      exact holds.overloads name

/-- An overload comes from a signature of its name. -/
theorem Holds.exists_signature (holds : r.Holds library) (member : f ∈ r.overloads name) :
    ∃ s ∈ library, s.name = name ∧ s.Describes f := by
  obtain ⟨s, listed, describes⟩ := exists_of_mem_right (holds.overloads name) member
  obtain ⟨listed, named⟩ := List.mem_filter.mp listed
  exact ⟨s, listed, of_decide_eq_true named, describes⟩

/-- A signature has its overload. -/
theorem Holds.exists_overload (holds : r.Holds library) (listed : s ∈ library) :
    ∃ f ∈ r.overloads s.name, s.Describes f := by
  have own : s ∈ library.filter (·.name = s.name) :=
    List.mem_filter.mpr ⟨listed, decide_eq_true rfl⟩
  have paired : List.Forall₂ (flip Signature.Describes) (r.overloads s.name) _ :=
    List.Forall₂.flip (holds.overloads s.name)
  exact exists_of_mem_right paired own

theorem Holds.overloads_ne_nil (holds : r.Holds library) (known : name ∈ r.names) :
    r.overloads name ≠ [] := by
  obtain ⟨s, listed, rfl⟩ := List.mem_map.mp ((holds.names.all name).mp known)
  obtain ⟨f, member, -⟩ := holds.exists_overload listed
  exact List.ne_nil_of_mem member

/-- The first overload's result stands for those of all signatures of the name. -/
theorem Holds.admits_iff (holds : r.Holds library) (sound : library.Sound)
    (describes : s.Describes f) : r.Admits f ↔ library.Fits s := by
  constructor
  · intro admits
    refine ⟨describes.valid, fun x listed same => ?_, fun x listed same equal => ?_⟩
    · -- the first overload is the only one whose result is compared, and it speaks for `x` too
      obtain ⟨g, member, -⟩ := holds.exists_overload listed
      rw [same, ← describes.name] at member
      obtain ⟨first, head⟩ := Option.isSome_iff_exists.mp
        (List.isSome_head?.mpr (List.ne_nil_of_mem member))
      obtain ⟨y, listed', named, describes'⟩ :=
        holds.exists_signature (List.mem_of_mem_head? head)
      calc x.returns = y.returns :=
            sound.shared x listed y listed' (by rw [same, named, describes.name])
        _ = s.returns := (describes'.returns_iff describes).mp (admits.result first head)
    · obtain ⟨g, member, describes'⟩ := holds.exists_overload listed
      rw [same, ← describes.name] at member
      exact admits.params g member ((describes'.paramTypes_iff describes).mpr equal)
  · intro fits
    refine ⟨fun g head => ?_, fun g member same => ?_⟩
    · obtain ⟨x, listed, named, describes'⟩ :=
        holds.exists_signature (List.mem_of_mem_head? head)
      rw [describes.name] at named
      exact (describes'.returns_iff describes).mpr (fits.shared x listed named)
    · obtain ⟨x, listed, named, describes'⟩ := holds.exists_signature member
      rw [describes.name] at named
      exact fits.distinct x listed named ((describes'.paramTypes_iff describes).mp same)

/-- One signature: it is taken exactly if it fits, and the registry then holds it too. -/
theorem Holds.register (holds : r.Holds library) (sound : library.Sound) (s : Signature) :
    (library.Fits s ∧ ∃ r', r.register s = .ok r' ∧ r'.Holds (library ++ [s])) ∨
      (¬ library.Fits s ∧ ∃ e, r.register s = .error e) := by
  cases made : s.function with
  | error e =>
      refine .inr ⟨fun fits => ?_, e, by rw [Registry.register, made]; rfl⟩
      obtain ⟨f, made'⟩ := Signature.exists_function fits.valid
      rw [made] at made'
      cases made'
  | ok f =>
      have describes := Signature.describes_function made
      rw [← holds.admits_iff sound describes]
      rcases r.register_cases made with ⟨admits, r', added, gains⟩ | refused
      · exact .inl ⟨admits, r', added, holds.gains describes gains⟩
      · exact .inr refused

/-- A library is registered exactly if it is sound. -/
theorem ofLibrary_cases (library : Library) :
    (library.Sound ∧ ∃ r, ofLibrary library = .ok r ∧ r.Holds library) ∨
      (¬ library.Sound ∧ ∃ e, ofLibrary library = .error e) := by
  -- from the end: what is registered before a signature is a library of its own
  induction library using List.reverseRecOn with
  | nil => exact .inl ⟨⟨by simp, by simp, .nil⟩, empty, rfl, .empty⟩
  | append_singleton library s ih =>
      rw [Library.sound_append_iff]
      unfold ofLibrary at ih ⊢
      rw [List.foldlM_append]
      rcases ih with ⟨sound, r, loaded, holds⟩ | ⟨unsound, e, refused⟩
      · rw [loaded]
        rcases holds.register sound s with ⟨fits, r', added, holds⟩ | ⟨misfit, e, refused⟩
        · refine .inl ⟨⟨sound, fits⟩, r', ?_, holds⟩
          simp [List.foldlM, added, bind, Except.bind, pure, Except.pure]
        · refine .inr ⟨fun both => misfit both.2, e, ?_⟩
          simp [List.foldlM, refused, bind, Except.bind]
      · rw [refused]
        exact .inr ⟨fun both => unsound both.1, e, rfl⟩

/-! ## Look-ups -/

theorem matching?_eq_none {types : List ValueType}
    (missing : ∀ f ∈ r.overloads name, f.paramTypes ≠ types) :
    r.matching? name (paramDescriptor (types.map .value)) = .ok none := by
  have unmatched : (r.overloads name).filter (·.paramTypes = types) = [] :=
    List.filter_eq_nil_iff.mpr fun f member same => missing f member (of_decide_eq_true same)
  unfold matching?
  rw [filter_descriptor, unmatched]

/-- A look-up by types finds the overload with these parameters, and is never ambiguous. -/
theorem Distinct.find? (distinct : r.Distinct) (name : String) (types : List ValueType) :
    ∃ found, r.find? name (some (types.map .value)) = .ok found ∧
      ∀ f, found = some f ↔ f ∈ r.overloads name ∧ f.paramTypes = types := by
  by_cases listed : ∃ f ∈ r.overloads name, f.paramTypes = types
  · obtain ⟨f, member, rfl⟩ := listed
    refine ⟨_, matching?_of_mem distinct member, fun g => ⟨?_, ?_⟩⟩
    · rintro ⟨⟩
      exact ⟨member, rfl⟩
    · rintro ⟨member', same⟩
      -- two overloads with these parameters are two answers to one look-up
      have again := matching?_of_mem distinct member'
      rw [same, matching?_of_mem distinct member] at again
      exact Except.ok.inj again
  · refine ⟨none, matching?_eq_none fun f member same => listed ⟨f, member, same⟩, fun f => ?_⟩
    constructor
    · intro found
      cases found
    · exact fun both => absurd ⟨f, both⟩ listed

theorem Holds.exists_overload_iff (holds : r.Holds library) {types : List ValueType} :
    (∃ f ∈ r.overloads name, f.paramTypes = types) ↔
      ∃ s ∈ library, s.name = name ∧ s.params = types.map .value := by
  constructor
  · rintro ⟨f, member, rfl⟩
    obtain ⟨s, listed, named, describes⟩ := holds.exists_signature member
    exact ⟨s, listed, named, describes.params.symm⟩
  · rintro ⟨s, listed, rfl, params⟩
    obtain ⟨f, member, describes⟩ := holds.exists_overload listed
    refine ⟨f, member, List.map_injective_iff.mpr (fun _ _ => Ty.value.inj) ?_⟩
    exact describes.params.trans params

end Registry

/-! ## The built-in functions of a table -/

theorem SymbolTable.ofLibrary_of_ok {library : Library} {r : Registry}
    (loaded : Registry.ofLibrary library = .ok r) : ofLibrary library = .ok (init r) := by
  rw [ofLibrary, loaded]
  rfl

theorem SymbolTable.ofLibrary_of_error {library : Library} {e : RegistryError}
    (refused : Registry.ofLibrary library = .error e) : ofLibrary library = .error e := by
  rw [ofLibrary, refused]
  rfl

/--
A table is made exactly of a library whose signatures are valid, share their results by name, and
differ in their parameters by name. Its built-in functions are then those of the library: a look-up
by types finds the overload with these parameters or nothing, each name lists the overloads of its
signatures in their order, without repetition, and the names are listed once by first signature.
-/
theorem builtins_exact (library : Library) :
    ((∃ t, SymbolTable.ofLibrary library = .ok t) ↔ library.Sound) ∧
      ∀ t, SymbolTable.ofLibrary library = .ok t →
        (∀ name (types : List ValueType), ∃ found,
          t.builtins.find? name (some (types.map .value)) = .ok found ∧
            (found.isSome = true ↔
              ∃ s ∈ library, s.name = name ∧ s.params = types.map .value) ∧
            ∀ f, found = some f ↔ f ∈ t.builtins.overloads name ∧ f.paramTypes = types) ∧
        (∀ name,
          List.Forall₂ Signature.Describes (library.filter (·.name = name))
              (t.builtins.overloads name) ∧
            (t.builtins.overloads name).Nodup ∧
            (t.isBuiltin name = true ↔ name ∈ t.builtins.names) ∧
            (name ∈ t.builtins.names → t.builtins.overloads name ≠ [])) ∧
        Firsts (library.map (·.name)) t.builtins.names := by
  rcases Registry.ofLibrary_cases library with
    ⟨sound, r, loaded, holds⟩ | ⟨unsound, e, refused⟩
  · refine ⟨⟨fun _ => sound, fun _ => ⟨_, SymbolTable.ofLibrary_of_ok loaded⟩⟩, fun t made => ?_⟩
    rw [SymbolTable.ofLibrary_of_ok loaded] at made
    cases made
    have distinct := Registry.distinct_ofLibrary loaded
    refine ⟨fun name types => ?_, fun name => ⟨holds.overloads name, (distinct name).of_map _,
      Registry.contains_iff, holds.overloads_ne_nil⟩, holds.names⟩
    obtain ⟨found, answer, same⟩ := distinct.find? name types
    refine ⟨found, answer, ?_, same⟩
    rw [← holds.exists_overload_iff, Option.isSome_iff_exists]
    exact exists_congr same
  · rw [SymbolTable.ofLibrary_of_error refused]
    refine ⟨⟨?_, fun sound => absurd sound unsound⟩, ?_⟩
    · rintro ⟨t, made⟩
      cases made
    · intro t made
      cases made

/-- Overloads of one name that start alike, with those of another name between them. -/
def Library.nested : Library :=
  [⟨"mix", [.value .int, .value .int], .void⟩,
    ⟨"ask", [], .value .string⟩,
    ⟨"mix", [.value .int], .void⟩,
    ⟨"mix", [], .void⟩,
    ⟨"mix", [.value .int, .value .string], .void⟩]

/-- The shorter of two overloads that start alike is found. -/
theorem nested_exact :
    ∃ t, SymbolTable.ofLibrary .nested = .ok t ∧
      ∃ f, t.builtins.find? "mix" (some [.value .int]) = .ok (some f) ∧ f.paramTypes = [.int] ∧
        Firsts ["mix", "ask", "mix", "mix", "mix"] t.builtins.names := by
  obtain ⟨t, made⟩ : ∃ t, SymbolTable.ofLibrary .nested = .ok t := ⟨_, rfl⟩
  obtain ⟨look, -, names⟩ := (builtins_exact .nested).2 t made
  obtain ⟨found, answer, registered, same⟩ := look "mix" [.int]
  have success : found.isSome = true :=
    registered.mpr ⟨⟨"mix", [.value .int], .void⟩, by decide, rfl, rfl⟩
  obtain ⟨f, rfl⟩ := Option.isSome_iff_exists.mp success
  exact ⟨t, made, f, answer, ((same f).mp rfl).2, names⟩

end Samo
