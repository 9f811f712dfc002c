import Mathlib.Logic.Function.Iterate
import Smx.Context.Bindings
import Smx.Core.Object
import Smx.Parse.Host

/-! `CreateDef` and `qObjDef::Eval`: the formal parameters of a macro, and what its body finds under their
names. -/
namespace Smx

/-- The names, modes and quote map of the formal parameters are three sequences. -/
structure QObjDef where
  myBody : Bytes
  myArgNames : List Bytes
  myQuoted : List ArgKind
  myQmap : Bytes
  deriving DecidableEq

def quoteChar (quoted : ArgKind) : Byte := if quoted = .dQuoted then ch '1' else ch '0'

/-- `AddArgName`. -/
def addArgName (d : QObjDef) (arg : Bytes) (quoted : ArgKind) : QObjDef :=
  let myQuoted := d.myQuoted ++ [quoted]
  { d with
    myArgNames := d.myArgNames ++ [arg]
    myQuoted
    myQmap :=
      if quoted = .dQuoted ∧ d.myQmap = [] then d.myQmap ++ myQuoted.map quoteChar
      else d.myQmap ++ [quoteChar quoted] }

/-- The name and the mode that an argument of `%define` declares. `arg+1` is a C string. -/
def declared (arg : Arg) : Bytes × ArgKind :=
  if arg.quot ≠ .str then (arg.text,.dQuoted)
  else if arg.text.head? = some (ch '*') then (cstr arg.text.tail,.dParsed)
  else if arg.text.head? = some (ch '&') then (cstr arg.text.tail,.dObjRef)
  else (arg.text,.dNormal)

/-- One turn of the loop of `CreateDef`. -/
def addFormal (d : QObjDef) (arg : Arg) : QObjDef :=
  if arg.text = [] then d else addArgName d (declared arg).1 (declared arg).2

/-- `CreateDef`: the macro, and its name. -/
def createDef (compile : Bytes → Bytes) (args : List Arg) (name : Bytes) : Option QObjDef × Bytes :=
  match args with
  | [] => (none,name)
  | first::args =>
    let name := if name = [] then first.text else name
    if name = [] then (none,name)
    else
      match args with
      | [] => (none,name)
      | body::formals => (some (formals.foldl addFormal ⟨compile body.text,[],[],[]⟩),name)

/-- The map of `tmpCtx`. -/
abbrev Env := Bytes → Option Obj

def Env.set (env : Env) (name : Bytes) (obj : Obj) : Env := Function.update env (mapKey name) (some obj)

section
variable (find : Bytes → Option Obj)

/-- What a formal parameter is bound to: a null string without an actual one, and nothing where `&` names no
object. -/
def valueOf (quoted : ArgKind) : Option Bytes → Option Obj
  | none => some (.str [])
  | some s =>
    match quoted with
    | .dParsed => some (.parsed s)
    | .dObjRef => (find s).map .byRef
    | _ => some (.str s)

/-- A turn of the loop over the actual arguments. -/
def bindActual (n : Bytes) (quoted : ArgKind) (s : Bytes) (env : Env) : Env :=
  if n = [] then env
  else
    match quoted with
    | .dParsed => env.set n (.parsed s)
    | .dQuoted => env.set n (.str s)
    | .dObjRef =>
      match find s with
      | some obj => env.set n (.byRef obj)
      | none => env
    | .dNormal => env.set n (.str s)

/-- A turn of the loop over the formal parameters that are left. -/
def bindMissing (env : Env) (n : Bytes) : Env := if n = [] then env else env.set n (.str [])

/-- Both loops of `qObjDef::Eval`. -/
def bindLoop : List Bytes → List ArgKind → List Bytes → Env → Env
  | n::ns,quoted::qs,s::ss,env => bindLoop ns qs ss (bindActual find n quoted s env)
  | ns,_,[],env => ns.foldl bindMissing env
  | _,_,_,env => env

/-- The context that `qObjDef::Eval` runs the body in. -/
def bodyEnv (d : QObjDef) (args : List Bytes) : Env :=
  let env := bindLoop find d.myArgNames d.myQuoted args fun _ => none
  let env := env.set (str "arg") (.defArgs (d.myArgNames.zip d.myQuoted) args)
  let env := env.set (str "num-args") (.str (decimal args.length))
  env.set (str "argc") (.str (decimal args.length))

end

/-- Whether the reader of the arguments takes argument `k` as it stands, without a quote of its own. -/
def quotedAt (qmap : Option Bytes) (k : ℕ) : Bool := ((fun q => qmapNext q.1 q.2)^[k] (argsStart qmap)).1

/-- Each named formal parameter denotes the actual one in its place, in its mode, and the quote map has its
places too. -/
structure BindsRight (d : QObjDef) (formals : List Arg) : Prop where
  bind : ∀ (find : Bytes → Option Obj) (args : List Bytes) pre f post, formals = pre ++ f::post →
    (declared f).1 ≠ [] →
    bodyEnv find d args (mapKey (declared f).1) = valueOf find (declared f).2 args[pre.length]?
  quote : ∀ k, quotedAt (some d.myQmap) k = true ↔ ∃ f, formals[k]? = some f ∧ f.quot ≠ .str

/-- The names that the body has for its arguments. -/
def ownKeys : List Bytes := [mapKey (str "arg"),mapKey (str "num-args"),mapKey (str "argc")]

/-- No parameter is left empty in front of one with a name, none is empty behind a quote, and their names
differ from each other and from those that the body has for its arguments. -/
structure WellFormals (formals : List Arg) : Prop where
  placed : ∀ pre f post, formals = pre ++ f::post → (declared f).1 ≠ [] → ∀ g ∈ pre, g.text ≠ []
  empty : ∀ f ∈ formals, f.text = [] → f.quot = .str
  own : ∀ f ∈ formals, (declared f).1 ≠ [] → mapKey (declared f).1 ∉ ownKeys
  distinct : formals.Pairwise fun f g => (declared f).1 ≠ [] → (declared g).1 ≠ [] →
    mapKey (declared f).1 ≠ mapKey (declared g).1

/-- The parameters that `CreateDef` adds. -/
def added (formals : List Arg) : List (Bytes × ArgKind) := (formals.filter (·.text ≠ [])).map declared

/-- A macro with aligned sequences. -/
def ofEntries (body : Bytes) (es : List (Bytes × ArgKind)) : QObjDef :=
  ⟨body,es.map Prod.fst,es.map Prod.snd,es.map fun e => quoteChar e.2⟩

section
variable {find : Bytes → Option Obj} {formals : List Arg} {body : Bytes} {es : List (Bytes × ArgKind)}

theorem addArgName_ofEntries (e : Bytes × ArgKind) :
    addArgName (ofEntries body es) e.1 e.2 = ofEntries body (es ++ [e]) := by
  have hmap : (ofEntries body es).myQmap = [] ↔ es = [] := List.map_eq_nil_iff
  simp only [addArgName,hmap]
  split_ifs with hfirst
  · rw [hfirst.2]
    rfl
  · simp [ofEntries]

/-- The three sequences stay aligned. -/
theorem foldl_addFormal (formals : List Arg) :
    formals.foldl addFormal (ofEntries body es) = ofEntries body (es ++ added formals) := by
  induction formals generalizing es with
  | nil => rw [List.foldl_nil,added,List.filter_nil,List.map_nil,List.append_nil]
  | cons f formals ih =>
    rw [List.foldl_cons,addFormal]
    by_cases hf : f.text = []
    · rw [if_pos hf,ih]
      simp [added,hf]
    · rw [if_neg hf,addArgName_ofEntries,ih]
      simp [added,hf]

theorem createDef_eq (compile : Bytes → Bytes) {first : Arg} (bodyArg : Arg) (formals : List Arg) (h : first.text ≠ []) :
    createDef compile (first::bodyArg::formals) [] =
      (some (ofEntries (compile bodyArg.text) (added formals)),first.text) := by
  have hstart : (⟨compile bodyArg.text,[],[],[]⟩ : QObjDef) = ofEntries (compile bodyArg.text) [] := rfl
  simp only [createDef,if_true,if_neg h]
  rw [hstart,foldl_addFormal,List.nil_append]

/-- What a parameter does to the map. -/
def bindOne (env : Env) (e : Bytes × Option Obj) : Env :=
  if e.1 = [] then env
  else
    match e.2 with
    | some obj => env.set e.1 obj
    | none => env

/-- The parameters with what they are bound to. -/
def binds (find : Bytes → Option Obj) : List (Bytes × ArgKind) → List Bytes → List (Bytes × Option Obj)
  | [],_ => []
  | e::es,args => (e.1,valueOf find e.2 args.head?)::binds find es args.tail

theorem bindActual_eq (n : Bytes) (quoted : ArgKind) (s : Bytes) (env : Env) :
    bindActual find n quoted s env = bindOne env (n,valueOf find quoted (some s)) := by
  by_cases hn : n = []
  · cases quoted <;> simp [bindActual,bindOne,hn]
  · cases quoted with
    | dObjRef => cases hs : find s <;> simp [bindActual,bindOne,valueOf,hn,hs]
    | _ => simp [bindActual,bindOne,valueOf,hn]

theorem foldl_bindMissing (es : List (Bytes × ArgKind)) (env : Env) :
    (es.map Prod.fst).foldl bindMissing env = (binds find es []).foldl bindOne env := by
  induction es generalizing env with
  | nil => rfl
  | cons e es ih => exact ih _

theorem bindLoop_eq (args : List Bytes) (env : Env) :
    bindLoop find (es.map Prod.fst) (es.map Prod.snd) args env = (binds find es args).foldl bindOne env := by
  induction es generalizing args env with
  | nil => cases args <;> rfl
  | cons e es ih =>
    cases args with
    | nil => exact foldl_bindMissing (e::es) env
    | cons s ss =>
      rw [List.map_cons,List.map_cons,bindLoop,ih,bindActual_eq]
      rfl

theorem binds_append (pre : List (Bytes × ArgKind)) (e : Bytes × ArgKind) (post : List (Bytes × ArgKind))
    (args : List Bytes) : binds find (pre ++ e::post) args =
      binds find pre args ++ (e.1,valueOf find e.2 args[pre.length]?)::binds find post (args.drop (pre.length+1)) := by
  induction pre generalizing args with
  | nil => cases args <;> rfl
  | cons d pre ih =>
    rw [List.cons_append,binds,ih,binds]
    cases args <;> simp

theorem map_fst_binds (es : List (Bytes × ArgKind)) (args : List Bytes) :
    (binds find es args).map Prod.fst = es.map Prod.fst := by
  induction es generalizing args with
  | nil => rfl
  | cons e es ih => exact congrArg (e.1::·) (ih _)

/-- Another key is left as it is. -/
theorem bindOne_other {env : Env} {e : Bytes × Option Obj} {key : Bytes}
    (h : e.1 ≠ [] → mapKey e.1 ≠ key) : bindOne env e key = env key := by
  rw [bindOne]
  split_ifs with hn
  · rfl
  · cases e.2 with
    | none => rfl
    | some obj => exact Function.update_of_ne (Ne.symm (h hn)) _ _

theorem foldl_bindOne_other {l : List (Bytes × Option Obj)} {env : Env} {key : Bytes}
    (h : ∀ n ∈ l.map Prod.fst, n ≠ [] → mapKey n ≠ key) : l.foldl bindOne env key = env key := by
  induction l generalizing env with
  | nil => rfl
  | cons e l ih =>
    rw [List.foldl_cons,ih fun n hn => h n (List.mem_cons_of_mem _ hn)]
    exact bindOne_other (h e.1 List.mem_cons_self)

/-- The parameter whose name no other has is bound to its own value. -/
theorem foldl_binds {pre post : List (Bytes × ArgKind)} {e : Bytes × ArgKind} (he : e.1 ≠ [])
    (hother : ∀ d ∈ pre ++ post, d.1 ≠ [] → mapKey d.1 ≠ mapKey e.1) (args : List Bytes) :
    (binds find (pre ++ e::post) args).foldl bindOne (fun _ => none) (mapKey e.1) =
      valueOf find e.2 args[pre.length]? := by
  have hnames : ∀ n ∈ (pre ++ post).map Prod.fst, n ≠ [] → mapKey n ≠ mapKey e.1 := by
    intro n hn
    obtain ⟨d,hd,rfl⟩ := List.mem_map.mp hn
    exact hother d hd
  rw [List.map_append] at hnames
  rw [binds_append,List.foldl_append,List.foldl_cons,foldl_bindOne_other]
  · have hpre : (binds find pre args).foldl bindOne (fun _ => none) (mapKey e.1) = none :=
      foldl_bindOne_other fun n hn => hnames n (List.mem_append_left _ (map_fst_binds _ args ▸ hn))
    rw [bindOne,if_neg he]
    cases valueOf find e.2 args[pre.length]? with
    | none => exact hpre
    | some obj => exact Function.update_self _ _ _
  · intro n hn
    exact hnames n (List.mem_append_right _ (map_fst_binds post _ ▸ hn))

theorem bodyEnv_ofEntries (args : List Bytes) {key : Bytes} (hkey : key ∉ ownKeys) :
    bodyEnv find (ofEntries body es) args key = (binds find es args).foldl bindOne (fun _ => none) key := by
  simp only [ownKeys,List.mem_cons,List.not_mem_nil,or_false,not_or] at hkey
  obtain ⟨harg,hnum,hargc⟩ := hkey
  rw [← bindLoop_eq]
  simp only [bodyEnv,Env.set,ofEntries]
  rw [Function.update_of_ne hargc,Function.update_of_ne hnum,Function.update_of_ne harg]

/-- Behind the first argument the reader is in the mode of the character it has gone over. -/
theorem quotedAt_succ (b : Bool) (qs : List ArgKind) (k : ℕ) :
    ((fun q : Bool × Bytes => qmapNext q.1 q.2)^[k+1] (b,qs.map quoteChar)).1 =
      decide (qs[k]? = some .dQuoted) := by
  induction k generalizing b qs with
  | zero =>
    cases qs with
    | nil => rfl
    | cons q qs => cases q <;> rfl
  | succ k ih =>
    rw [Function.iterate_succ_apply]
    cases qs with
    | nil => exact ih false []
    | cons q qs =>
      have hnext : qmapNext b ((q::qs).map quoteChar) = (q == .dQuoted,qs.map quoteChar) := by
        cases q <;> rfl
      rw [hnext]
      exact ih _ qs

theorem quotedAt_map (qs : List ArgKind) (k : ℕ) :
    quotedAt (some (qs.map quoteChar)) k = decide (qs[k]? = some .dQuoted) := by
  cases qs with
  | nil =>
    cases k with
    | zero => rfl
    | succ k => exact quotedAt_succ false [] k
  | cons q qs =>
    have hstart : argsStart (some ((q::qs).map quoteChar)) = (q == .dQuoted,qs.map quoteChar) := by
      cases q <;> rfl
    rw [quotedAt,hstart]
    cases k with
    | zero => cases q <;> rfl
    | succ k => exact quotedAt_succ _ qs k

theorem declared_quoted {f : Arg} : (declared f).2 = .dQuoted ↔ f.quot ≠ .str := by
  rw [declared]
  split_ifs with hq hs ha <;> simp [hq]

theorem declared_fst_nil {f : Arg} (h : f.text = []) : (declared f).1 = [] := by
  rw [declared,h]
  split_ifs <;> rfl

/-- A quoted parameter that is not empty has a name. -/
theorem declared_fst_quoted {f : Arg} (hq : f.quot ≠ .str) (h : f.text ≠ []) : (declared f).1 ≠ [] := by
  rwa [declared,if_pos hq]

theorem added_append {pre post : List Arg} {f : Arg} (h : f.text ≠ []) :
    added (pre ++ f::post) = added pre ++ declared f::added post := by
  simp [added,h]

theorem length_added {pre : List Arg} (h : ∀ g ∈ pre, g.text ≠ []) : (added pre).length = pre.length := by
  rw [added,List.length_map,List.filter_eq_self.mpr fun g hg => by simpa using h g hg]

/-- Every added parameter comes from a place in the list. -/
theorem added_getElem? {k : ℕ} {e : Bytes × ArgKind} (h : (added formals)[k]? = some e) :
    ∃ pre f post, formals = pre ++ f::post ∧ f.text ≠ [] ∧ declared f = e ∧ (added pre).length = k := by
  induction formals generalizing k with
  | nil => cases h
  | cons g formals ih =>
    by_cases hg : g.text = []
    · have hskip : added (g::formals) = added formals := by simp [added,hg]
      rw [hskip] at h
      obtain ⟨pre,f,post,hf,hne,he,hk⟩ := ih h
      refine ⟨g::pre,f,post,congrArg (g::·) hf,hne,he,?_⟩
      rw [← hk]
      simp [added,hg]
    · have hput : added (g::formals) = declared g::added formals := by simp [added,hg]
      rw [hput] at h
      cases k with
      | zero => exact ⟨[],g,formals,rfl,hg,Option.some.inj h,rfl⟩
      | succ k =>
        obtain ⟨pre,f,post,hf,hne,he,hk⟩ := ih h
        refine ⟨g::pre,f,post,congrArg (g::·) hf,hne,he,?_⟩
        rw [← hk]
        simp [added,hg]

/-- The quote map marks the places of the quoted parameters among the added ones. -/
theorem quotedAt_added {k : ℕ} : quotedAt (some (ofEntries body (added formals)).myQmap) k = true ↔
    ∃ pre f post, formals = pre ++ f::post ∧ f.text ≠ [] ∧ f.quot ≠ .str ∧ (added pre).length = k := by
  have hmap : (ofEntries body (added formals)).myQmap = ((added formals).map Prod.snd).map quoteChar := by
    rw [List.map_map]
    rfl
  rw [hmap,quotedAt_map,decide_eq_true_iff,List.getElem?_map,Option.map_eq_some_iff]
  constructor
  · rintro ⟨e,he,hq⟩
    obtain ⟨pre,f,post,hf,hne,rfl,hk⟩ := added_getElem? he
    exact ⟨pre,f,post,hf,hne,declared_quoted.mp hq,hk⟩
  · rintro ⟨pre,f,post,rfl,hne,hq,rfl⟩
    refine ⟨declared f,?_,declared_quoted.mpr hq⟩
    rw [added_append hne,List.getElem?_append_right (le_refl _),Nat.sub_self]
    rfl

/-- A parameter whose name is its own is bound to the actual one in the place it is added at. -/
theorem bodyEnv_added {pre post : List Arg} {f : Arg} (hf : (declared f).1 ≠ [])
    (hown : mapKey (declared f).1 ∉ ownKeys)
    (hdistinct : (pre ++ f::post).Pairwise fun f g => (declared f).1 ≠ [] → (declared g).1 ≠ [] →
      mapKey (declared f).1 ≠ mapKey (declared g).1) (args : List Bytes) :
    bodyEnv find (ofEntries body (added (pre ++ f::post))) args (mapKey (declared f).1) =
      valueOf find (declared f).2 args[(added pre).length]? := by
  have htext : f.text ≠ [] := fun hnil => hf (declared_fst_nil hnil)
  obtain ⟨-,hpost,hpre⟩ := List.pairwise_append.mp hdistinct
  have hafter := (List.pairwise_cons.mp hpost).1
  rw [bodyEnv_ofEntries args hown,added_append htext]
  refine foldl_binds hf (fun d hd hnd => ?_) args
  obtain hd | hd := List.mem_append.mp hd
  · obtain ⟨g,hg,rfl⟩ := List.mem_map.mp hd
    exact hpre g (List.mem_of_mem_filter hg) f List.mem_cons_self hnd hf
  · obtain ⟨g,hg,rfl⟩ := List.mem_map.mp hd
    exact (hafter g (List.mem_of_mem_filter hg) hf hnd).symm

/-- The names of `qObjDef::Eval` are bound last. -/
theorem bodyEnv_own {d : QObjDef} {key : Bytes} (h : key ∈ ownKeys) :
    bodyEnv find d [] key ≠ some (.str []) := by
  simp only [ownKeys,List.mem_cons,List.not_mem_nil,or_false] at h
  simp only [bodyEnv,Env.set]
  obtain rfl | rfl | rfl := h
  · rw [Function.update_of_ne (by decide),Function.update_of_ne (by decide),Function.update_self]
    nofun
  · rw [Function.update_of_ne (by decide),Function.update_self]
    exact fun heq => absurd (Obj.str.inj (Option.some.inj heq)) (by decide)
  · rw [Function.update_self]
    exact fun heq => absurd (Obj.str.inj (Option.some.inj heq)) (by decide)

/-- Where every name is bound, different texts are different values. -/
theorem valueOf_injective (quoted : ArgKind) {s t : Bytes}
    (h : valueOf (fun s => some (.str s)) quoted (some s) = valueOf (fun s => some (.str s)) quoted (some t)) :
    s = t := by
  cases quoted <;> simpa [valueOf] using h

theorem valueOf_ne_null (quoted : ArgKind) :
    valueOf (fun s => some (.str s)) quoted (some [1]) ≠ some (.str []) := by
  cases quoted <;> simp [valueOf]

theorem BindsRight.wellFormals (h : BindsRight (ofEntries body (added formals)) formals) : WellFormals formals := by
  have hown : ∀ f ∈ formals, (declared f).1 ≠ [] → mapKey (declared f).1 ∉ ownKeys := by
    intro f hf hname hmem
    obtain ⟨pre,post,hsplit⟩ := List.append_of_mem hf
    have hbind := h.bind (fun _ => none) [] pre f post hsplit hname
    exact bodyEnv_own hmem hbind
  have hdistinct : formals.Pairwise fun f g => (declared f).1 ≠ [] → (declared g).1 ≠ [] →
      mapKey (declared f).1 ≠ mapKey (declared g).1 := by
    rw [List.pairwise_iff_getElem]
    intro i j hi hj hij hfi hfj heq
    have hsplit (k : ℕ) (hk : k < formals.length) : formals = formals.take k ++ formals[k]::formals.drop (k+1) := by
      rw [← List.drop_eq_getElem_cons hk,List.take_append_drop]
    let args := List.replicate i [] ++ [[(1 : Byte)]]
    have hbi := h.bind (fun s => some (.str s)) args _ _ _ (hsplit i hi) hfi
    have hbj := h.bind (fun s => some (.str s)) args _ _ _ (hsplit j hj) hfj
    rw [List.length_take_of_le hi.le,List.getElem?_append_right (by simp)] at hbi
    rw [List.length_take_of_le hj.le,List.getElem?_eq_none (by simp [args]; omega)] at hbj
    rw [heq,hbj,List.length_replicate,Nat.sub_self] at hbi
    exact valueOf_ne_null _ hbi.symm
  have hplaced : ∀ pre f post, formals = pre ++ f::post → (declared f).1 ≠ [] → ∀ g ∈ pre, g.text ≠ [] := by
    rintro pre f post rfl hname g hg hnil
    have hshort : (added pre).length < pre.length := by
      rw [added,List.length_map]
      refine List.length_filter_lt_length_iff_exists.mpr ⟨g,hg,?_⟩
      simp [hnil]
    let args := List.replicate pre.length [] ++ [[(1 : Byte)]]
    have hbind := h.bind (fun s => some (.str s)) args pre f post rfl hname
    rw [bodyEnv_added hname (hown f (by simp) hname) hdistinct,
      List.getElem?_append_left (by simpa using hshort),List.getElem?_append_right (by simp),
      List.length_replicate,Nat.sub_self,List.getElem?_replicate,if_pos hshort] at hbind
    exact absurd (valueOf_injective _ hbind) (by decide)
  refine ⟨hplaced,fun f hf hnil => ?_,hown,hdistinct⟩
  by_contra hq
  obtain ⟨pre,post,hsplit⟩ := List.append_of_mem hf
  have hget : formals[pre.length]? = some f := by
    rw [hsplit,List.getElem?_append_right (le_refl _),Nat.sub_self]
    rfl
  have hquote := (h.quote pre.length).mpr ⟨f,hget,hq⟩
  obtain ⟨pre',g,post',hsplit',hne,hgq,hlen⟩ := quotedAt_added.mp hquote
  rw [length_added (hplaced pre' g post' hsplit' (declared_fst_quoted hgq hne))] at hlen
  have hg : formals[pre.length]? = some g := by
    rw [hsplit',← hlen,List.getElem?_append_right (le_refl _),Nat.sub_self]
    rfl
  rw [hg] at hget
  exact hne (Option.some.inj hget ▸ hnil)

theorem WellFormals.bindsRight (h : WellFormals formals) : BindsRight (ofEntries body (added formals)) formals := by
  constructor
  · rintro find args pre f post rfl hname
    rw [bodyEnv_added hname (h.own f (by simp) hname) h.distinct,
      length_added (h.placed pre f post rfl hname)]
  · intro k
    rw [quotedAt_added]
    constructor
    · rintro ⟨pre,f,post,rfl,hne,hq,rfl⟩
      refine ⟨f,?_,hq⟩
      rw [length_added (h.placed pre f post rfl (declared_fst_quoted hq hne)),
        List.getElem?_append_right (le_refl _),Nat.sub_self]
      rfl
    · rintro ⟨f,hf,hq⟩
      obtain ⟨hk,rfl⟩ := List.getElem?_eq_some_iff.mp hf
      have hsplit : formals = formals.take k ++ formals[k]::formals.drop (k+1) := by
        rw [← List.drop_eq_getElem_cons hk,List.take_append_drop]
      have hne : formals[k].text ≠ [] := fun hnil => hq (h.empty _ (List.getElem_mem hk) hnil)
      refine ⟨_,_,_,hsplit,hne,hq,?_⟩
      rw [length_added (h.placed _ _ _ hsplit (declared_fst_quoted hq hne)),List.length_take_of_le hk.le]

end
end Smx
