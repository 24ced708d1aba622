import ScriptCheck.Builtin.Basic

/-!
# Built-in modules

The modules that a script can import by name, with what they export and the methods of the values
they make.
-/

namespace ScriptCheck.Builtin

/-- Arithmetic functions. -/
def math : Module where
  name := "math"
  functions := [
    ⟨"abs", ["number"], 1, [.number]⟩,
    ⟨"atan2", ["y", "x"], 2, [.double]⟩,
    ⟨"cos", ["x"], 1, [.double]⟩,
    ⟨"exp", ["x"], 1, [.double]⟩,
    ⟨"log", ["x"], 1, [.double]⟩,
    ⟨"sin", ["x"], 1, [.double]⟩,
    ⟨"sqrt", ["x"], 1, [.double]⟩,
    ⟨"pow", ["x", "y"], 2, [.number]⟩,
    ⟨"rand", [], 0, [.integer]⟩,
    ⟨"srand", ["seed"], 1, [.null]⟩,
    ⟨"isnan", ["x"], 1, [.boolean]⟩]

/-- Files, directories and processes. -/
def fs : Module where
  name := "fs"
  functions := [
    ⟨"open", ["path", "mode", "perm"], 1, handle "fs.file"⟩,
    ⟨"fdopen", ["fd", "mode"], 1, handle "fs.file"⟩,
    ⟨"opendir", ["path"], 1, handle "fs.dir"⟩,
    ⟨"popen", ["command", "mode"], 1, handle "fs.proc"⟩,
    ⟨"mkstemp", ["template"], 0, handle "fs.file"⟩,
    ⟨"readlink", ["path"], 1, orNull .string⟩,
    ⟨"stat", ["path"], 1, orNull .object⟩,
    ⟨"lstat", ["path"], 1, orNull .object⟩,
    ⟨"mkdir", ["path", "mode"], 1, orNull .boolean⟩,
    ⟨"rmdir", ["path"], 1, orNull .boolean⟩,
    ⟨"symlink", ["target", "path"], 2, orNull .boolean⟩,
    ⟨"unlink", ["path"], 1, orNull .boolean⟩,
    ⟨"getcwd", [], 0, orNull .string⟩,
    ⟨"chdir", ["path"], 1, orNull .boolean⟩,
    ⟨"chmod", ["path", "mode"], 2, orNull .boolean⟩,
    ⟨"chown", ["path", "uid", "gid"], 1, orNull .boolean⟩,
    ⟨"rename", ["oldpath", "newpath"], 2, orNull .boolean⟩,
    ⟨"glob", ["...patterns"], 0, orNull .array⟩,
    ⟨"dirname", ["path"], 1, orNull .string⟩,
    ⟨"basename", ["path"], 1, orNull .string⟩,
    ⟨"lsdir", ["path", "pattern"], 1, orNull .array⟩,
    ⟨"access", ["path", "mode"], 1, orNull .boolean⟩,
    ⟨"readfile", ["path", "limit"], 1, orNull .string⟩,
    ⟨"writefile", ["path", "data", "limit"], 2, orNull .integer⟩,
    ⟨"realpath", ["path"], 1, orNull .string⟩,
    ⟨"pipe", [], 0, orNull .array⟩,
    ⟨"error", [], 0, orNull .string⟩]
  constants := [
    ⟨"stdin", .resource "fs.file"⟩, ⟨"stdout", .resource "fs.file"⟩,
    ⟨"stderr", .resource "fs.file"⟩]
  objectTypes := [
    ⟨"fs.file", [
      ⟨"read", ["length"], 1, orNull .string⟩,
      ⟨"write", ["data"], 1, orNull .integer⟩,
      ⟨"seek", ["offset", "whence"], 0, orNull .boolean⟩,
      ⟨"tell", [], 0, orNull .integer⟩,
      ⟨"close", [], 0, orNull .boolean⟩,
      ⟨"flush", [], 0, orNull .boolean⟩,
      ⟨"fileno", [], 0, orNull .integer⟩,
      ⟨"isatty", [], 0, [.boolean]⟩,
      ⟨"truncate", ["offset"], 0, orNull .boolean⟩,
      ⟨"lock", ["op"], 0, orNull .boolean⟩,
      ⟨"error", [], 0, orNull .string⟩]⟩,
    ⟨"fs.dir", [
      ⟨"read", [], 0, orNull .string⟩,
      ⟨"tell", [], 0, orNull .integer⟩,
      ⟨"seek", ["offset"], 1, orNull .boolean⟩,
      ⟨"close", [], 0, orNull .boolean⟩,
      ⟨"fileno", [], 0, orNull .integer⟩,
      ⟨"error", [], 0, orNull .string⟩]⟩,
    ⟨"fs.proc", [
      ⟨"read", ["length"], 1, orNull .string⟩,
      ⟨"write", ["data"], 1, orNull .integer⟩,
      ⟨"close", [], 0, orNull .integer⟩,
      ⟨"flush", [], 0, orNull .boolean⟩,
      ⟨"fileno", [], 0, orNull .integer⟩,
      ⟨"error", [], 0, orNull .string⟩]⟩]

/-- Digests of texts and files. -/
def digest : Module where
  name := "digest"
  functions := [
    ⟨"md5", ["str"], 1, orNull .string⟩,
    ⟨"sha1", ["str"], 1, orNull .string⟩,
    ⟨"sha256", ["str"], 1, orNull .string⟩,
    ⟨"sha384", ["str"], 1, orNull .string⟩,
    ⟨"sha512", ["str"], 1, orNull .string⟩,
    ⟨"md5_file", ["path"], 1, orNull .string⟩,
    ⟨"sha1_file", ["path"], 1, orNull .string⟩,
    ⟨"sha256_file", ["path"], 1, orNull .string⟩,
    ⟨"sha384_file", ["path"], 1, orNull .string⟩,
    ⟨"sha512_file", ["path"], 1, orNull .string⟩]

/-- System logging. -/
def log : Module where
  name := "log"
  functions := [
    ⟨"openlog", ["ident", "options", "facility"], 0, [.boolean]⟩,
    ⟨"syslog", ["priority", "format", "...args"], 2, [.boolean]⟩,
    ⟨"closelog", [], 0, [.null]⟩,
    ⟨"ulog_open", ["channels", "facility", "ident"], 0, [.boolean]⟩,
    ⟨"ulog", ["priority", "format", "...args"], 2, [.boolean]⟩,
    ⟨"ulog_close", [], 0, [.null]⟩,
    ⟨"ulog_threshold", ["priority"], 0, [.boolean]⟩,
    ⟨"INFO", ["format", "...args"], 1, [.boolean]⟩,
    ⟨"NOTE", ["format", "...args"], 1, [.boolean]⟩,
    ⟨"WARN", ["format", "...args"], 1, [.boolean]⟩,
    ⟨"ERR", ["format", "...args"], 1, [.boolean]⟩]
  constants := integers ["LOG_PID", "LOG_CONS", "LOG_NDELAY", "LOG_ODELAY", "LOG_NOWAIT",
    "LOG_AUTH", "LOG_DAEMON", "LOG_USER", "LOG_LOCAL0", "LOG_EMERG", "LOG_ALERT", "LOG_CRIT",
    "LOG_ERR", "LOG_WARNING", "LOG_NOTICE", "LOG_INFO", "LOG_DEBUG", "ULOG_KMSG", "ULOG_SYSLOG",
    "ULOG_STDIO"]

/-- Network sockets. -/
def socket : Module where
  name := "socket"
  functions := [
    ⟨"create", ["domain", "type", "protocol"], 0, handle "socket.socket"⟩,
    ⟨"connect", ["host", "service", "hints", "timeout"], 1, handle "socket.socket"⟩,
    ⟨"listen", ["host", "service", "hints", "backlog"], 1, handle "socket.socket"⟩,
    ⟨"open", ["fd"], 1, handle "socket.socket"⟩,
    ⟨"pair", ["type"], 0, orNull .array⟩,
    ⟨"sockaddr", ["address"], 1, orNull .object⟩,
    ⟨"nameinfo", ["address", "flags"], 1, orNull .object⟩,
    ⟨"addrinfo", ["hostname", "service", "hints"], 1, orNull .array⟩,
    ⟨"poll", ["timeout", "...sockets"], 1, orNull .array⟩,
    ⟨"error", ["numeric"], 0, [.string, .integer, .null]⟩,
    ⟨"strerror", ["code"], 1, orNull .string⟩]
  constants := integers ["AF_INET", "AF_INET6", "AF_UNIX", "AF_UNSPEC", "SOCK_STREAM", "SOCK_DGRAM",
    "SOCK_RAW", "SOCK_NONBLOCK", "SOCK_CLOEXEC", "IPPROTO_TCP", "IPPROTO_UDP", "SOL_SOCKET",
    "SO_REUSEADDR", "SO_KEEPALIVE", "POLLIN", "POLLOUT", "POLLERR", "POLLHUP", "MSG_DONTWAIT",
    "MSG_PEEK"]
  objectTypes := [
    ⟨"socket.socket", [
      ⟨"connect", ["address", "port"], 1, orNull .boolean⟩,
      ⟨"bind", ["address", "port"], 1, orNull .boolean⟩,
      ⟨"listen", ["backlog"], 0, orNull .boolean⟩,
      ⟨"accept", ["address", "flags"], 0, handle "socket.socket"⟩,
      ⟨"send", ["data", "flags", "address"], 1, orNull .integer⟩,
      ⟨"recv", ["length", "flags", "address"], 0, orNull .string⟩,
      ⟨"setopt", ["level", "option", "value"], 3, orNull .boolean⟩,
      ⟨"getopt", ["level", "option"], 2, [.any]⟩,
      ⟨"fileno", [], 0, [.integer]⟩,
      ⟨"peername", [], 0, orNull .object⟩,
      ⟨"sockname", [], 0, orNull .object⟩,
      ⟨"shutdown", ["how"], 1, orNull .boolean⟩,
      ⟨"close", [], 0, orNull .boolean⟩,
      ⟨"error", ["numeric"], 0, [.string, .integer, .null]⟩]⟩]

/-- Packing values into text. -/
def structModule : Module where
  name := "struct"
  functions := [
    ⟨"pack", ["format", "...values"], 1, orNull .string⟩,
    ⟨"unpack", ["format", "input", "offset"], 2, orNull .array⟩,
    ⟨"new", ["format"], 1, handle "struct.format"⟩,
    ⟨"buffer", ["data"], 0, handle "struct.buffer"⟩]
  objectTypes := [
    ⟨"struct.format", [
      ⟨"pack", ["...values"], 0, orNull .string⟩,
      ⟨"unpack", ["input", "offset"], 1, orNull .array⟩]⟩,
    ⟨"struct.buffer", [
      ⟨"pos", ["offset"], 0, [.any]⟩,
      ⟨"length", [], 0, [.integer]⟩,
      ⟨"put", ["format", "...values"], 1, [.any]⟩,
      ⟨"get", ["format"], 1, [.any]⟩,
      ⟨"slice", ["start", "end"], 0, orNull .string⟩,
      ⟨"pull", [], 0, orNull .string⟩]⟩]

/-- The system message bus. -/
def ubus : Module where
  name := "ubus"
  functions := [
    ⟨"connect", ["socket", "timeout"], 0, handle "ubus.connection"⟩,
    ⟨"error", ["numeric"], 0, [.string, .integer, .null]⟩]
  constants := integers ["STATUS_OK", "STATUS_INVALID_COMMAND", "STATUS_INVALID_ARGUMENT",
    "STATUS_METHOD_NOT_FOUND", "STATUS_NOT_FOUND", "STATUS_NO_DATA", "STATUS_PERMISSION_DENIED",
    "STATUS_TIMEOUT", "STATUS_NOT_SUPPORTED", "STATUS_UNKNOWN_ERROR", "STATUS_CONNECTION_FAILED"]
  objectTypes := [
    ⟨"ubus.connection", [
      ⟨"list", ["path"], 0, orNull .array⟩,
      ⟨"call", ["object", "method", "data", "callback"], 2, [.any]⟩,
      ⟨"publish", ["object", "methods"], 1, handle "ubus.object"⟩,
      ⟨"listener", ["pattern", "callback"], 2, handle "ubus.listener"⟩,
      ⟨"subscriber", ["notify", "remove"], 0, handle "ubus.subscriber"⟩,
      ⟨"event", ["event", "data"], 1, orNull .boolean⟩,
      ⟨"error", ["numeric"], 0, [.string, .integer, .null]⟩,
      ⟨"disconnect", [], 0, [.boolean]⟩]⟩,
    ⟨"ubus.object", [
      ⟨"notify", ["type", "data", "callback"], 1, [.any]⟩,
      ⟨"subscribed", [], 0, [.boolean]⟩,
      ⟨"remove", [], 0, orNull .boolean⟩]⟩,
    ⟨"ubus.listener", [
      ⟨"remove", [], 0, orNull .boolean⟩]⟩,
    ⟨"ubus.subscriber", [
      ⟨"subscribe", ["object"], 1, orNull .boolean⟩,
      ⟨"unsubscribe", ["object"], 1, orNull .boolean⟩,
      ⟨"remove", [], 0, orNull .boolean⟩]⟩]

/-- The configuration store. -/
def uci : Module where
  name := "uci"
  functions := [
    ⟨"cursor", ["config_dir", "delta_dir", "config2_dir", "flags"], 0, handle "uci.cursor"⟩,
    ⟨"error", [], 0, orNull .string⟩]
  objectTypes := [
    ⟨"uci.cursor", [
      ⟨"load", ["config"], 1, orNull .boolean⟩,
      ⟨"unload", ["config"], 1, orNull .boolean⟩,
      ⟨"get", ["config", "section", "option"], 2, [.any]⟩,
      ⟨"get_all", ["config", "section"], 1, orNull .object⟩,
      ⟨"get_first", ["config", "type", "option"], 2, [.any]⟩,
      ⟨"add", ["config", "type"], 2, orNull .string⟩,
      ⟨"set", ["config", "section", "option", "value"], 3, orNull .boolean⟩,
      ⟨"rename", ["config", "section", "option", "name"], 3, orNull .boolean⟩,
      ⟨"save", ["config"], 0, orNull .boolean⟩,
      ⟨"delete", ["config", "section", "option"], 2, orNull .boolean⟩,
      ⟨"list_append", ["config", "section", "option", "value"], 4, orNull .boolean⟩,
      ⟨"list_remove", ["config", "section", "option", "value"], 4, orNull .boolean⟩,
      ⟨"reorder", ["config", "section", "index"], 3, orNull .boolean⟩,
      ⟨"commit", ["config"], 0, orNull .boolean⟩,
      ⟨"revert", ["config"], 0, orNull .boolean⟩,
      ⟨"changes", ["config"], 0, orNull .object⟩,
      ⟨"foreach", ["config", "type", "callback"], 3, orNull .boolean⟩,
      ⟨"configs", [], 0, orNull .array⟩,
      ⟨"error", [], 0, orNull .string⟩]⟩]

/-- The event loop. -/
def uloop : Module where
  name := "uloop"
  functions := [
    ⟨"init", [], 0, orNull .boolean⟩,
    ⟨"run", ["timeout"], 0, orNull .integer⟩,
    ⟨"end", [], 0, [.null]⟩,
    ⟨"done", [], 0, [.boolean]⟩,
    ⟨"timer", ["timeout", "callback"], 0, handle "uloop.timer"⟩,
    ⟨"handle", ["handle", "callback", "events"], 3, handle "uloop.handle"⟩,
    ⟨"process", ["executable", "args", "env", "callback"], 4, handle "uloop.process"⟩,
    ⟨"task", ["func", "output_cb", "input_cb"], 1, handle "uloop.task"⟩,
    ⟨"interval", ["timeout", "callback"], 2, handle "uloop.interval"⟩,
    ⟨"signal", ["signal", "callback"], 2, handle "uloop.signal"⟩,
    ⟨"cancelling", [], 0, [.boolean]⟩,
    ⟨"running", [], 0, [.boolean]⟩,
    ⟨"error", [], 0, orNull .string⟩]
  constants := integers ["ULOOP_READ", "ULOOP_WRITE", "ULOOP_EDGE_TRIGGER", "ULOOP_BLOCKING"]
  objectTypes := [
    ⟨"uloop.timer", [
      ⟨"set", ["timeout"], 0, [.boolean]⟩,
      ⟨"remaining", [], 0, [.integer]⟩,
      ⟨"cancel", [], 0, [.boolean]⟩]⟩,
    ⟨"uloop.handle", [
      ⟨"fileno", [], 0, [.integer]⟩,
      ⟨"handle", [], 0, [.any]⟩,
      ⟨"delete", [], 0, [.null]⟩]⟩,
    ⟨"uloop.process", [
      ⟨"pid", [], 0, [.integer]⟩,
      ⟨"delete", [], 0, [.boolean]⟩]⟩,
    ⟨"uloop.task", [
      ⟨"pid", [], 0, [.integer]⟩,
      ⟨"kill", [], 0, [.boolean]⟩,
      ⟨"finished", [], 0, [.boolean]⟩]⟩,
    ⟨"uloop.interval", [
      ⟨"set", ["timeout"], 0, [.boolean]⟩,
      ⟨"remaining", [], 0, [.integer]⟩,
      ⟨"expirations", [], 0, [.integer]⟩,
      ⟨"cancel", [], 0, [.boolean]⟩]⟩,
    ⟨"uloop.signal", [
      ⟨"signo", [], 0, [.integer]⟩,
      ⟨"delete", [], 0, [.boolean]⟩]⟩]

/-- Compression. -/
def zlib : Module where
  name := "zlib"
  functions := [
    ⟨"deflate", ["data", "gzip", "level"], 1, orNull .string⟩,
    ⟨"inflate", ["data"], 1, orNull .string⟩]
  constants := integers ["Z_NO_COMPRESSION", "Z_BEST_SPEED", "Z_BEST_COMPRESSION",
    "Z_DEFAULT_COMPRESSION"]

/-- Wireless requests to the kernel. -/
def nl80211 : Module where
  name := "nl80211"
  functions := [
    ⟨"request", ["cmd", "flags", "payload"], 1, [.any]⟩,
    ⟨"waitfor", ["cmds", "timeout"], 1, orNull .object⟩,
    ⟨"listener", ["callback", "cmds"], 2, handle "nl80211.listener"⟩,
    ⟨"error", [], 0, orNull .string⟩]
  constants := [
    ⟨"const", .object⟩]
  objectTypes := [
    ⟨"nl80211.listener", [
      ⟨"set_commands", ["cmds"], 1, [.boolean]⟩,
      ⟨"close", [], 0, [.boolean]⟩]⟩]

/-- Routing requests to the kernel. -/
def rtnl : Module where
  name := "rtnl"
  functions := [
    ⟨"request", ["cmd", "flags", "payload"], 1, [.any]⟩,
    ⟨"listener", ["callback", "cmds", "groups"], 1, handle "rtnl.listener"⟩,
    ⟨"error", [], 0, orNull .string⟩]
  constants := [
    ⟨"const", .object⟩]
  objectTypes := [
    ⟨"rtnl.listener", [
      ⟨"set_commands", ["cmds"], 1, [.boolean]⟩,
      ⟨"close", [], 0, [.boolean]⟩]⟩]

/-- Name resolution. -/
def resolv : Module where
  name := "resolv"
  functions := [
    ⟨"query", ["names", "options"], 1, orNull .object⟩,
    ⟨"error", [], 0, orNull .string⟩]

/-- All modules. -/
def modules : List Module :=
  [math, fs, digest, log, socket, structModule, ubus, uci, uloop, zlib, nl80211, rtnl, resolv]

/-- The module that is imported by a name. -/
def module? (name : String) : Option Module := modules.find? (·.name == name)

/-- The method of a value with a tag, which names the module the value comes from before its first
dot. -/
def method? (tag name : String) : Option Signature := do
  guard (tag.toList.contains '.')
  let m ← module? (String.ofList (tag.toList.takeWhile (· != '.')))
  let methods ← m.methods? tag
  methods.find? (·.name == name)

end ScriptCheck.Builtin
