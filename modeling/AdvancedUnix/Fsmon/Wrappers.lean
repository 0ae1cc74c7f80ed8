import AdvancedUnix.X86.Convention

/-!
# The functions that the monitor takes over

The monitor is loaded before the C library and defines functions under its
names. Each of them calls the function of the library and writes a line to the
log. Most come from four macros, for one to four parameters, which are given the
types of the parameters and of the result; `fclose`, `fscanf` and `fprintf` are
written out.

A message is a format together with what it shows. It may show the name behind a
parameter that is a descriptor, a stream or a directory, and that name is looked
up when the message is put together; only `fclose` looks it up beforehand.
-/

namespace Fsmon

open Memory X86

/-- The functions that are taken over. -/
inductive Fn
  | closedir | opendir | readdir | creat | «open» | read | write | dup | dup2 | close | lstat
  | stat | pwrite | fopen | fclose | fread | fwrite | fwriteUnlocked | fgetc | fgets | fscanf
  | fprintf | chdir | chown | chmod | remove | rename | link | unlink | readlink | symlink
  | mkdir | rmdir | xstat | lxstat | fputsUnlocked | fflush
  deriving DecidableEq

def sizeT : CType := .longLong
def ssizeT : CType := .longLong
def offT : CType := .longLong
def modeT : CType := .unsigned
def uidT : CType := .unsigned
def gidT : CType := .unsigned

/-- How a parameter leads to a descriptor: `fd_to_filename`, `get_file_name` and
`get_dir_name`. -/
inductive Naming
  | fd
  | file
  | dir
  deriving DecidableEq

/-- A value in a message. -/
inductive Shown
  | param (i : Nat)
  | ret
  | name (n : Naming) (i : Nat)
  /-- The name that was looked up before the call. -/
  | filename
  | verboseParam (i : Nat)
  | verboseRet
  /-- The name in the directory entry that is returned. -/
  | entryName
  | verboseStat (i : Nat)

structure Message where
  format : String
  shown : List Shown

/-- A function of the monitor: the function of the library that it calls, the
types it gives to the parameters and the result, whether it hands on a variable
argument list, the name it looks up before the call, and the message it writes
for a result. -/
structure Wrapper where
  func : Fn
  params : List CType
  result : CType
  variadic : Bool
  filename : Option (Naming × Nat)
  message : Word → Option Message

/-- The same message for every result. -/
def writeMsg (format : String) (shown : List Shown) (_ : Word) : Option Message :=
  some ⟨format, shown⟩

def beginMon1 (func : Fn) (pt1 rt : CType) (message : Word → Option Message) : Wrapper :=
  ⟨func, [pt1], rt, false, none, message⟩

def beginMon2 (func : Fn) (pt1 pt2 rt : CType) (message : Word → Option Message) : Wrapper :=
  ⟨func, [pt1, pt2], rt, false, none, message⟩

def beginMon3 (func : Fn) (pt1 pt2 pt3 rt : CType) (message : Word → Option Message) : Wrapper :=
  ⟨func, [pt1, pt2, pt3], rt, false, none, message⟩

def beginMon4 (func : Fn) (pt1 pt2 pt3 pt4 rt : CType) (message : Word → Option Message) :
    Wrapper :=
  ⟨func, [pt1, pt2, pt3, pt4], rt, false, none, message⟩

namespace Wrapper

def closedir : Wrapper := beginMon1 .closedir .pointer .int <|
  writeMsg "closedir(\"%s\") = %d\n" [.name .dir 0, .ret]

def opendir : Wrapper := beginMon1 .opendir .pointer .pointer <|
  writeMsg "opendir(\"%s\") = 0x%X\n" [.param 0, .ret]

def readdir : Wrapper := beginMon1 .readdir .pointer .pointer fun ret =>
  if ret = 0 then none else some ⟨"readdir(\"%s\") = %s\n", [.name .dir 0, .entryName]⟩

def creat : Wrapper := beginMon2 .creat .pointer modeT .int <|
  writeMsg "creat(\"%s\", %d) = %d\n" [.param 0, .param 1, .ret]

def «open» : Wrapper := beginMon2 .open .pointer .int .int <|
  writeMsg "open(\"%s\", %d) = %d\n" [.param 0, .param 1, .ret]

def read : Wrapper := beginMon3 .read .int .pointer sizeT .int <|
  writeMsg "read(%s, 0x%X, %d) = %d\n" [.name .fd 0, .param 1, .param 2, .ret]

def write : Wrapper := beginMon3 .write .int .pointer sizeT .int <|
  writeMsg "write(%d, 0x%X, %d) = %d\n" [.param 0, .param 1, .param 2, .ret]

def dup : Wrapper := beginMon1 .dup .int .int <|
  writeMsg "dup(%d) = %d\n" [.param 0, .ret]

def dup2 : Wrapper := beginMon2 .dup2 .int .int .int <|
  writeMsg "dup2(%d, %d) = %d\n" [.param 0, .param 1, .ret]

def close : Wrapper := beginMon1 .close .int .int <|
  writeMsg "close(%d) = %d\n" [.param 0, .ret]

def lstat : Wrapper := beginMon2 .lstat .pointer .pointer .int <|
  writeMsg "lstat(\"%s\", 0x%X) = %d\n" [.param 0, .param 1, .ret]

def stat : Wrapper := beginMon2 .stat .pointer .pointer .int <|
  writeMsg "stat(\"%s\", 0x%X) = %d\n" [.param 0, .param 1, .ret]

def pwrite : Wrapper := beginMon4 .pwrite .int .pointer sizeT offT ssizeT <|
  writeMsg "pwrite(%d, 0x%X, %d, %d) = %d\n" [.param 0, .param 1, .param 2, .param 3, .ret]

def fopen : Wrapper := beginMon2 .fopen .pointer .pointer .pointer <|
  writeMsg "fopen(\"%s\", \"%s\") = 0x%X\n" [.param 0, .param 1, .ret]

/-- The name is looked up before the stream is closed. -/
def fclose : Wrapper where
  func := .fclose
  params := [.pointer]
  result := .int
  variadic := false
  filename := some (.file, 0)
  message := writeMsg "fclose(\"%s\") = %d\n" [.filename, .ret]

def fread : Wrapper := beginMon4 .fread .pointer sizeT sizeT .pointer sizeT <|
  writeMsg "pwrite(0x%X, %d, %d, %s) = %d\n" [.param 0, .param 1, .param 2, .name .file 3, .ret]

def fwrite : Wrapper := beginMon4 .fwrite .pointer sizeT sizeT .pointer sizeT <|
  writeMsg "fwrite(0x%X, %d, %d, %s) = %d\n" [.param 0, .param 1, .param 2, .name .file 3, .ret]

def fwriteUnlocked : Wrapper := beginMon4 .fwriteUnlocked .pointer sizeT sizeT .pointer sizeT <|
  writeMsg "fwrite_unlocked(0x%X, %d, %d, %s) = %d\n"
    [.param 0, .param 1, .param 2, .name .file 3, .ret]

def fgetc : Wrapper := beginMon1 .fgetc .pointer .int fun ret =>
  if ret = 0x0a then some ⟨"fgetc(%s) = '\\n'\n", [.name .file 0]⟩
  else some ⟨"fgetc(%s) = '%c'\n", [.name .file 0, .ret]⟩

def fgets : Wrapper := beginMon3 .fgets .pointer .int .pointer .pointer <|
  writeMsg "fgets(0x%X, %d, %s) = \"%s\"\n" [.param 0, .param 1, .name .file 2, .verboseRet]

/-- Calls `vfscanf` with the list behind its two parameters. -/
def fscanf : Wrapper where
  func := .fscanf
  params := [.pointer, .pointer]
  result := .int
  variadic := true
  filename := none
  message := writeMsg "fscanf(%s, \"%s\", ...) = %d\n" [.name .file 0, .verboseParam 1, .ret]

/-- Calls `vfprintf` with the list behind its two parameters. -/
def fprintf : Wrapper where
  func := .fprintf
  params := [.pointer, .pointer]
  result := .int
  variadic := true
  filename := none
  message := writeMsg "fprintf(%s, \"%s\", ...) = %d\n" [.name .file 0, .verboseParam 1, .ret]

def chdir : Wrapper := beginMon1 .chdir .pointer .int <|
  writeMsg "chdir(\"%s\") = %d\n" [.param 0, .ret]

def chown : Wrapper := beginMon3 .chown .pointer uidT gidT .int <|
  writeMsg "chown(\"%s\", %d, %d) = %d\n" [.param 0, .param 1, .param 2, .ret]

def chmod : Wrapper := beginMon2 .chmod .pointer modeT .int <|
  writeMsg "chmod(%s, %d) = %d\n" [.param 0, .param 1, .ret]

def remove : Wrapper := beginMon1 .remove .pointer .int <|
  writeMsg "remove(\"%s\") = %d\n" [.param 0, .ret]

def rename : Wrapper := beginMon2 .rename .pointer .pointer .int <|
  writeMsg "rename(\"%s\", \"%s\") = %d\n" [.param 0, .param 1, .ret]

def link : Wrapper := beginMon2 .link .pointer .pointer .int <|
  writeMsg "link(\"%s\", \"%s\") = %d\n" [.param 0, .param 1, .ret]

def unlink : Wrapper := beginMon1 .unlink .pointer .int <|
  writeMsg "unlink(\"%s\") = %d\n" [.param 0, .ret]

def readlink : Wrapper := beginMon3 .readlink .pointer .pointer sizeT ssizeT <|
  writeMsg "readlink(\"%s\", \"%s\", %d) = %d\n" [.param 0, .param 1, .param 2, .ret]

def symlink : Wrapper := beginMon2 .symlink .pointer .pointer .int <|
  writeMsg "syslink(\"%s\", \"%s\") = %d\n" [.param 0, .param 1, .ret]

def mkdir : Wrapper := beginMon2 .mkdir .pointer modeT .int <|
  writeMsg "mkdir(\"%s\", %d) = %d\n" [.param 0, .param 1, .ret]

def rmdir : Wrapper := beginMon1 .rmdir .pointer .int <|
  writeMsg "rmdir(\"%s\") = %d\n" [.param 0, .ret]

def xstat : Wrapper := beginMon3 .xstat .int .pointer .pointer .int <|
  writeMsg "__xstat(%d, %s, 0x%X %s) = %d\n"
    [.param 0, .param 1, .param 2, .verboseStat 2, .ret]

def lxstat : Wrapper := beginMon3 .lxstat .int .pointer .pointer .int <|
  writeMsg "__lxstat(%d, %s, 0x%X %s) = %d\n"
    [.param 0, .param 1, .param 2, .verboseStat 2, .ret]

def fputsUnlocked : Wrapper := beginMon2 .fputsUnlocked .pointer .pointer .int <|
  writeMsg "fputs_unlocked(0x%X, %s) = %d\n" [.param 0, .name .file 1, .ret]

def fflush : Wrapper := beginMon1 .fflush .pointer .int <|
  writeMsg "fflush(%s) = %d\n" [.name .file 0, .ret]

end Wrapper

/-- The function of the monitor under a name. -/
def Fn.wrapper : Fn → Wrapper
  | closedir => .closedir
  | opendir => .opendir
  | readdir => .readdir
  | creat => .creat
  | «open» => .open
  | read => .read
  | write => .write
  | dup => .dup
  | dup2 => .dup2
  | close => .close
  | lstat => .lstat
  | stat => .stat
  | pwrite => .pwrite
  | fopen => .fopen
  | fclose => .fclose
  | fread => .fread
  | fwrite => .fwrite
  | fwriteUnlocked => .fwriteUnlocked
  | fgetc => .fgetc
  | fgets => .fgets
  | fscanf => .fscanf
  | fprintf => .fprintf
  | chdir => .chdir
  | chown => .chown
  | chmod => .chmod
  | remove => .remove
  | rename => .rename
  | link => .link
  | unlink => .unlink
  | readlink => .readlink
  | symlink => .symlink
  | mkdir => .mkdir
  | rmdir => .rmdir
  | xstat => .xstat
  | lxstat => .lxstat
  | fputsUnlocked => .fputsUnlocked
  | fflush => .fflush

/-- What a function of the monitor does, in order. -/
inductive Step
  /-- Keep the name behind a parameter. -/
  | keep (n : Naming) (i : Nat)
  /-- Call the function of the library. -/
  | call
  | log (m : Message)

/-- The steps of a call that comes to a result. -/
def Wrapper.steps (w : Wrapper) (ret : Word) : List Step :=
  (w.filename.map fun p => .keep p.1 p.2).toList ++ .call :: ((w.message ret).map .log).toList

@[simp] theorem Fn.wrapper_func (f : Fn) : f.wrapper.func = f := by
  cases f <;> rfl

section

variable {f : Fn} {ret : Word} {msg : Message}

end

/-- Every function that the monitor takes over. -/
def Fn.all : List Fn :=
  [.closedir, .opendir, .readdir, .creat, .open, .read, .write, .dup, .dup2, .close, .lstat, .stat,
    .pwrite, .fopen, .fclose, .fread, .fwrite, .fwriteUnlocked, .fgetc, .fgets, .fscanf, .fprintf,
    .chdir, .chown, .chmod, .remove, .rename, .link, .unlink, .readlink, .symlink, .mkdir, .rmdir,
    .xstat, .lxstat, .fputsUnlocked, .fflush]

theorem Fn.mem_all (f : Fn) : f ∈ Fn.all := by
  cases f <;> decide

end Fsmon
