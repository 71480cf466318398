import Mathlib.Data.List.Basic
import Mathlib.Logic.Function.Basic

/-!
The command line of `easy/base/Env.cc`.

`init` keeps the key that it has seen last until it knows whether it has a value. What it does
with a pending key and the rest of the arguments is what it does with the key in front of them, so
that the law is one about lists of arguments.
-/

namespace Easy.Base

/-- An argument, as the string up to its null byte. -/
abbrev Token := List Char

structure Env where
  /-- `args_` -/
  args : Token → Option Token
  program : Token
  exe : Token
  cwd : Token

namespace Env

/-- The part of a path up to the last slash, and a slash. -/
def dirOf (path : Token) : Token :=
  (if '/' ∈ path then ((path.reverse.dropWhile (· ≠ '/')).drop 1).reverse else path) ++ ['/']

def add (e : Env) (key val : Token) : Env :=
  { e with args := Function.update e.args key (some val) }

def has (e : Env) (key : Token) : Bool := (e.args key).isSome

def get (e : Env) (key default_value : Token) : Token := (e.args key).getD default_value

/-- A pending key is added without a value. -/
def flush (e : Env) : Option Token → Env
  | none => e
  | some now_key => e.add now_key []

/-- The loop of `init`, and the test behind it. -/
def initLoop : Option Token → List Token → Env → Bool × Env
  | now_key, [], e => (true, e.flush now_key)
  | now_key, arg :: args, e =>
    if arg.head? = some '-' then
      if 1 < arg.length then initLoop (some arg.tail) args (e.flush now_key) else (false, e)
    else
      match now_key with
      | some now_key => initLoop none args (e.add now_key arg)
      | none => (false, e)

/-- `init`, where `readlink` is what it finds and fails if it is null. The first argument is there,
and the program's name. -/
def init (e : Env) (readlink : Option Token) (argv₀ : Token) (args : List Token) : Bool × Env :=
  match readlink with
  | none => (false, e)
  | some path =>
    initLoop none args { e with exe := path, cwd := dirOf path, program := argv₀ }

end Env

/-! ### The grammar -/

/-- An option: a key that is not empty, with at most one value, which does not begin with a
dash. -/
structure EnvOption where
  key : Token
  value : Option Token
  key_ne : key ≠ []
  value_ne : ∀ v ∈ value, v.head? ≠ some '-'

namespace EnvOption

/-- The arguments of an option. -/
def tokens (o : EnvOption) : List Token := ('-' :: o.key) :: o.value.toList

/-- An option without a value. -/
def bare (key : Token) (hkey : key ≠ []) : EnvOption := ⟨key, none, hkey, nofun⟩

/-- The value that is stored for it. -/
def stored (o : EnvOption) : Token := o.value.getD []

variable {opts : List EnvOption} {arg : Token} {args : List Token}

/-- The first argument of options is a key. -/
theorem exists_of_cons (h : arg :: args = opts.flatMap tokens) :
    ∃ o rest, opts = o :: rest ∧ arg = '-' :: o.key ∧
      args = o.value.toList ++ rest.flatMap tokens := by
  cases opts with
  | nil => cases h
  | cons o rest =>
      obtain ⟨harg, hargs⟩ := List.cons.inj h
      exact ⟨o, rest, rfl, harg, hargs⟩

theorem not_dash (h : ['-'] :: args = opts.flatMap tokens) : False := by
  obtain ⟨o, -, -, harg, -⟩ := exists_of_cons h
  exact o.key_ne (List.cons.inj harg).2.symm

theorem head?_of_cons (h : arg :: args = opts.flatMap tokens) : arg.head? = some '-' := by
  obtain ⟨o, -, -, rfl, -⟩ := exists_of_cons h
  rfl

/-- A key that an argument with a dash follows is an option of its own. -/
theorem exists_dash_iff {key : Token} (hkey : key ≠ []) (hdash : arg.head? = some '-') :
    (∃ opts : List EnvOption, ('-' :: key) :: arg :: args = opts.flatMap tokens) ↔
      ∃ opts : List EnvOption, arg :: args = opts.flatMap tokens := by
  constructor
  · rintro ⟨opts, hopts⟩
    obtain ⟨o, rest, -, -, hargs⟩ := exists_of_cons hopts
    cases hvalue : o.value with
    | none =>
        rw [hvalue] at hargs
        exact ⟨rest, hargs⟩
    | some v =>
        rw [hvalue] at hargs
        obtain ⟨rfl, -⟩ := List.cons.inj hargs
        exact absurd hdash (o.value_ne arg hvalue)
  · rintro ⟨opts, hopts⟩
    exact ⟨bare key hkey :: opts, congrArg (('-' :: key) :: ·) hopts⟩

/-- A key that another argument follows is an option together with it. -/
theorem exists_value_iff {key : Token} (hkey : key ≠ []) (hdash : arg.head? ≠ some '-') :
    (∃ opts : List EnvOption, ('-' :: key) :: arg :: args = opts.flatMap tokens) ↔
      ∃ opts : List EnvOption, args = opts.flatMap tokens := by
  constructor
  · rintro ⟨opts, hopts⟩
    obtain ⟨o, rest, -, -, hargs⟩ := exists_of_cons hopts
    cases hvalue : o.value with
    | none =>
        rw [hvalue] at hargs
        exact absurd (head?_of_cons hargs) hdash
    | some v =>
        rw [hvalue] at hargs
        exact ⟨rest, (List.cons.inj hargs).2⟩
  · rintro ⟨opts, hopts⟩
    refine ⟨⟨key, some arg, hkey, by simpa using hdash⟩ :: opts, ?_⟩
    exact congrArg (('-' :: key) :: arg :: ·) hopts

end EnvOption

/-! ### The loop -/

namespace Env

open EnvOption

variable {e : Env} {args : List Token} {opts : List EnvOption}

/-- The arguments with a pending key in front of them. -/
def pending (now_key : Option Token) (args : List Token) : List Token :=
  (now_key.map ('-' :: ·)).toList ++ args

/-- What an argument is for the loop. -/
theorem arg_cases (arg : Token) :
    (∃ k, k ≠ [] ∧ arg = '-' :: k) ∨ arg = ['-'] ∨ arg.head? ≠ some '-' := by
  cases arg with
  | nil => exact .inr (.inr nofun)
  | cons c k =>
      by_cases hdash : c = '-'
      · subst hdash
        by_cases hk : k = []
        · exact .inr (.inl (hk ▸ rfl))
        · exact .inl ⟨k, hk, rfl⟩
      · exact .inr (.inr (by simpa using hdash))

theorem initLoop_key (now_key : Option Token) {k : Token} (hk : k ≠ []) :
    initLoop now_key (('-' :: k) :: args) e = initLoop (some k) args (e.flush now_key) := by
  cases now_key <;> simp [initLoop, hk, List.length_pos_iff]

theorem initLoop_dash (now_key : Option Token) :
    initLoop now_key (['-'] :: args) e = (false, e) := by
  cases now_key <;> rfl

theorem initLoop_value (now_key : Token) {arg : Token} (hdash : arg.head? ≠ some '-') :
    initLoop (some now_key) (arg :: args) e = initLoop none args (e.add now_key arg) := by
  simp [initLoop, hdash]

theorem initLoop_stray {arg : Token} (hdash : arg.head? ≠ some '-') :
    initLoop none (arg :: args) e = (false, e) := by
  simp [initLoop, hdash]

/-- **The loop accepts** the sequences of options. -/
theorem initLoop_iff {now_key : Option Token} (hkey : ∀ k ∈ now_key, k ≠ []) :
    (initLoop now_key args e).1 = true ↔
      ∃ opts : List EnvOption, pending now_key args = opts.flatMap tokens := by
  induction args generalizing now_key e with
  | nil =>
      cases now_key with
      | none => exact iff_of_true rfl ⟨[], rfl⟩
      | some k => exact iff_of_true rfl ⟨[bare k (hkey k rfl)], rfl⟩
  | cons arg args ih =>
      rcases arg_cases arg with ⟨k, hk, rfl⟩ | rfl | hdash
      · rw [initLoop_key now_key hk, ih (by simpa using hk)]
        cases now_key with
        | none => exact Iff.rfl
        | some k' => exact (exists_dash_iff (hkey k' rfl) rfl).symm
      · rw [initLoop_dash]
        refine iff_of_false Bool.false_ne_true ?_
        cases now_key with
        | none =>
            rintro ⟨opts, hopts⟩
            exact not_dash hopts
        | some k =>
            intro hopts
            obtain ⟨rest, hrest⟩ := (exists_dash_iff (hkey k rfl) rfl).mp hopts
            exact not_dash hrest
      · cases now_key with
        | none =>
            rw [initLoop_stray hdash]
            refine iff_of_false Bool.false_ne_true ?_
            rintro ⟨opts, hopts⟩
            exact hdash (head?_of_cons hopts)
        | some k =>
            rw [initLoop_value k hdash]
            have hnone : ∀ k ∈ (none : Option Token), k ≠ [] := nofun
            exact (ih hnone).trans (exists_value_iff (hkey k rfl) hdash).symm

/-- A pending key that options follow has no value. -/
theorem initLoop_pending (now_key : Token) (opts : List EnvOption) (e : Env) :
    initLoop (some now_key) (opts.flatMap tokens) e =
      initLoop none (opts.flatMap tokens) (e.add now_key []) := by
  cases opts with
  | nil => rfl
  | cons o opts =>
      rw [List.flatMap_cons, tokens, List.cons_append, initLoop_key _ o.key_ne,
        initLoop_key _ o.key_ne]
      rfl

/-- **The options are added** one after the other. -/
theorem initLoop_options (opts : List EnvOption) (e : Env) :
    initLoop none (opts.flatMap tokens) e =
      (true, opts.foldl (fun e o => e.add o.key o.stored) e) := by
  induction opts generalizing e with
  | nil => rfl
  | cons o opts ih =>
      rw [List.flatMap_cons, tokens, List.cons_append, initLoop_key none o.key_ne]
      cases hvalue : o.value with
      | none =>
          rw [Option.toList_none, List.nil_append, initLoop_pending, ih, List.foldl_cons, stored,
            hvalue]
          rfl
      | some v =>
          rw [Option.toList_some, List.singleton_append,
            initLoop_value o.key (o.value_ne v hvalue), ih, List.foldl_cons, stored, hvalue]
          rfl

theorem args_add (key val k : Token) :
    (e.add key val).args k = if k = key then some val else e.args k :=
  Function.update_apply ..

/-- Options that do not have the key leave it as it was. -/
theorem args_foldl_of_not_mem {k : Token} (h : ∀ o ∈ opts, o.key ≠ k) :
    (opts.foldl (fun e o => e.add o.key o.stored) e).args k = e.args k := by
  induction opts generalizing e with
  | nil => rfl
  | cons o opts ih =>
      rw [List.foldl_cons, ih fun o' ho' => h o' (List.mem_cons_of_mem _ ho'), args_add,
        if_neg (h o List.mem_cons_self).symm]

/-- The last option that has the key decides. -/
theorem args_foldl_last {before after : List EnvOption} {o : EnvOption}
    (h : ∀ o' ∈ after, o'.key ≠ o.key) :
    ((before ++ o :: after).foldl (fun e o => e.add o.key o.stored) e).args o.key =
      some o.stored := by
  rw [List.foldl_append, List.foldl_cons, args_foldl_of_not_mem h, args_add, if_pos rfl]

/-- A key that is given is given a last time. -/
theorem exists_last {k : Token} (h : ∃ o ∈ opts, o.key = k) :
    ∃ before o after, opts = before ++ o :: after ∧ o.key = k ∧ ∀ o' ∈ after, o'.key ≠ k := by
  induction opts with
  | nil =>
      obtain ⟨o, ho, -⟩ := h
      cases ho
  | cons o opts ih =>
      by_cases hrest : ∃ o ∈ opts, o.key = k
      · obtain ⟨before, o', after, rfl, hkey, hlast⟩ := ih hrest
        exact ⟨o :: before, o', after, rfl, hkey, hlast⟩
      · obtain ⟨o', ho', hkey⟩ := h
        rcases List.mem_cons.mp ho' with rfl | ho'
        · exact ⟨[], o', opts, rfl, hkey, fun o'' ho'' heq => hrest ⟨o'', ho'', heq⟩⟩
        · exact absurd ⟨o', ho', hkey⟩ hrest

/-! ### The law -/

/-- What a list of options leaves to `has` and `get`. -/
structure Holds (e : Env) (opts : List EnvOption) : Prop where
  has_iff : ∀ k, e.has k = true ↔ ∃ o ∈ opts, o.key = k
  get_last : ∀ before o after, opts = before ++ o :: after → (∀ o' ∈ after, o'.key ≠ o.key) →
    ∀ default_value, e.get o.key default_value = o.value.getD []
  get_none : ∀ k, (∀ o ∈ opts, o.key ≠ k) → ∀ default_value, e.get k default_value = default_value

/-- **`init`** accepts exactly the sequences of options, whose keys are then there with the value
of their last occurrence. -/
theorem init_spec (e : Env) (hargs : ∀ k, e.args k = none) (path argv₀ : Token)
    (args : List Token) :
    ((e.init (some path) argv₀ args).1 = true ↔
        ∃ opts : List EnvOption, args = opts.flatMap tokens) ∧
      ∀ opts : List EnvOption, args = opts.flatMap tokens →
        (e.init (some path) argv₀ args).2.Holds opts := by
  refine ⟨initLoop_iff nofun, ?_⟩
  rintro opts rfl
  have hinit : (e.init (some path) argv₀ (opts.flatMap tokens)).2 =
      opts.foldl (fun (e : Env) o => e.add o.key o.stored)
        { e with exe := path, cwd := dirOf path, program := argv₀ } :=
    congrArg Prod.snd (initLoop_options opts _)
  rw [hinit]
  have hnone : ∀ k, (∀ o ∈ opts, o.key ≠ k) →
      (opts.foldl (fun (e : Env) o => e.add o.key o.stored)
        { e with exe := path, cwd := dirOf path, program := argv₀ }).args k = none :=
    fun k hk => (args_foldl_of_not_mem hk).trans (hargs k)
  refine ⟨fun k => ⟨fun hhas => ?_, fun hmem => ?_⟩, ?_, fun k hk d => ?_⟩
  · by_contra hmem
    rw [has, hnone k fun o ho hkey => hmem ⟨o, ho, hkey⟩] at hhas
    cases hhas
  · obtain ⟨before, o, after, rfl, rfl, hlast⟩ := exists_last hmem
    rw [has, args_foldl_last hlast]
    rfl
  · rintro before o after rfl hlast d
    rw [get, args_foldl_last hlast]
    rfl
  · rw [get, hnone k hk]
    rfl

/-- `prog -d -c conf -c` -/
theorem init_spec_repeated : ∃ e : Env,
    (e.init (some ['/', 'p']) ['p'] [['-', 'd'], ['-', 'c'], ['f'], ['-', 'c']]).1 = true ∧
      (e.init (some ['/', 'p']) ['p'] [['-', 'd'], ['-', 'c'], ['f'], ['-', 'c']]).2.get ['c']
        ['x'] = [] := by
  let opts : List EnvOption :=
    [bare ['d'] nofun, ⟨['c'], some ['f'], nofun, by decide⟩, bare ['c'] nofun]
  obtain ⟨haccepts, hholds⟩ := init_spec ⟨fun _ => none, [], [], []⟩ (fun _ => rfl) ['/', 'p'] ['p']
    [['-', 'd'], ['-', 'c'], ['f'], ['-', 'c']]
  refine ⟨_, haccepts.mpr ⟨opts, rfl⟩, ?_⟩
  exact (hholds opts rfl).get_last (opts.take 2) (bare ['c'] nofun) [] rfl nofun ['x']

end Env

end Easy.Base
